import Combinatory.Naming
import Combinatory.Proofs.Settled.Reduction

/-!
# Canonical forms look at no table in effect

The search for a canonical form and the guess at one run terms and build others, so they do not
depend on the table of settled applications, and give recorded terms. The same holds of the names
that are made with their help.
-/

namespace Combinatory

variable {ok : Native → Prop} {p p' : Twins} {R : Rules}

namespace Term

/-- Counting the symbols of a term looks at no table. -/
theorem alike_counted (p : Twins) (t : Term) :
    Alike (counted t) (counted t) p fun _ _ => True := by
  unfold counted
  split
  · exact .throw
  · exact .pure trivial

private theorem records_closeProbes (hR : R.Steady ok p) (probes : List Variable) {t : Term}
    (ht : t.Recorded ok p.heap) :
    Alike (closeProbes R probes t) (closeProbes R probes t) p
      fun form p' => form.term.Recorded ok p'.heap := by
  unfold closeProbes
  apply (alike_counted p t).bind
  intro symbols p₁ hp _
  apply (records_abstractAll probes (hR.later hp) (ht.later hp)).bind
  intro u p₂ _ hu
  exact .pure hu

/-- What a search tells: a form that was found is recorded. -/
abbrev RecordsForm (ok : Native → Prop) (x : Engine (Option CanonicalForm × Nat))
    (p : Twins) : Prop :=
  Alike x x p fun r p' => ∀ form, r.1 = some form → form.term.Recorded ok p'.heap

private theorem records_searchFrom (hR : R.Steady ok p) (maxSteps : Amount) (left : Nat)
    {t : Term} (probes : List Variable) (spent : Nat) (ht : t.Recorded ok p.heap) :
    RecordsForm ok (searchFrom R maxSteps t probes spent left) p := by
  induction left generalizing p t probes spent with
  | zero =>
    unfold searchFrom
    exact .pure nofun
  | succ left ih =>
    unfold searchFrom
    apply (records_run hR maxSteps false ht .nil).bind
    intro out p₁ hp₁ hout
    split
    · exact .pure nofun
    · split
      · apply (records_closeProbes (hR.later hp₁) probes hout).bind
        intro form p₂ _ hform
        refine .pure ?_
        rintro _ ⟨⟩
        exact hform
      · apply (Engine.alike_freshVariable p₁ _).bind
        intro probe p₂ hp₂ _
        have hR := hR.later (Twins.le_trans hp₁ hp₂)
        have hprobe : (var probe).Recorded ok p₂.heap := trivial
        apply (records_apply hR (hout.later hp₂) (.cons hprobe .nil)).bind
        intro u p₃ hp₃ hu
        exact ih (hR.later hp₃) _ _ hu

theorem records_search (hR : R.Steady ok p) (budget : Budget) {t : Term}
    (ht : t.Recorded ok p.heap) : RecordsForm ok (search R budget t) p := by
  unfold search
  apply (Engine.alike_whole p budget.args).bind
  intro args p₁ hp _
  exact records_searchFrom (hR.later hp) budget.steps _ [] 0 (ht.later hp)

private theorem records_best (hR : R.Steady ok p) (budget : Budget) {t : Term}
    (ht : t.Recorded ok p.heap) {guess : Engine (Option Term)}
    (hguess : ∀ p', p ≤ p' → RecordsAny ok guess p') : RecordsAny ok (best R budget t guess) p := by
  unfold best
  apply (records_search hR budget ht).bind
  intro r p₁ hp hr
  split
  · next form _ =>
    refine .pure ?_
    rintro _ ⟨⟩
    exact hr form rfl
  · exact hguess p₁ hp

/-- The halves of a recorded application are recorded. -/
theorem records_split (hR : R.Steady ok p) {h : Term} {as : List Term}
    (hh : h.Recorded ok p.heap) (has : RecordedAll ok p.heap as) :
    Alike (split R h as) (split R h as) p
      fun q p' => q.1.Recorded ok p'.heap ∧ q.2.Recorded ok p'.heap := by
  unfold split
  split
  · next last hlast =>
    obtain ⟨bs, rfl⟩ := List.getLast?_eq_some_iff.mp hlast
    obtain ⟨hbs, hl, -⟩ := recordedAll_append.mp has
    rw [List.dropLast_concat]
    apply (records_apply hR hh hbs).bind
    intro front p₁ hp hfront
    exact .pure ⟨hfront, hl.later hp⟩
  · exact .pure ⟨hh, hh⟩

private theorem records_join (hR : R.Steady ok p) {front last : Option Term}
    (hf : ∀ u, front = some u → u.Recorded ok p.heap)
    (ha : ∀ u, last = some u → u.Recorded ok p.heap) : RecordsAny ok (join R front last) p := by
  unfold join
  split
  · next f a => exact Native.records_some (records_apply hR (hf f rfl) (.cons (ha a rfl) .nil))
  · exact recordsAny_none

private theorem records_halves (hR : R.Steady ok p) (budget : Budget) {front last : Term}
    (hf : front.Recorded ok p.heap) (ha : last.Recorded ok p.heap)
    {x y : Engine (Option Term)} (hx : ∀ p', p ≤ p' → RecordsAny ok x p')
    (hy : ∀ p', p ≤ p' → RecordsAny ok y p') :
    RecordsAny ok (do
      let f ← best R budget front x
      let a ← best R budget last y
      join R f a) p := by
  apply (records_best hR budget hf hx).bind
  intro f p₁ hp₁ hf
  apply (records_best (hR.later hp₁) budget (ha.later hp₁)
    fun p' hp' => hy p' (Twins.le_trans hp₁ hp')).bind
  intro a p₂ hp₂ ha
  exact records_join (hR.later (Twins.le_trans hp₁ hp₂)) (fun u hu => (hf u hu).later hp₂) ha

theorem records_guess {p : Twins} (hR : R.Steady ok p) (budget : Budget) (t : Term)
    (patience : Nat) (ht : t.Recorded ok p.heap) : RecordsAny ok (guess R budget t patience) p := by
  match t with
  | app n h as =>
    rw [guess_app]
    apply (records_split hR ht.2.1 ht.2.2).left.bind
    rintro ⟨front, last⟩ p₁ hp ⟨⟨hf, ha⟩, hsplit⟩
    dsimp only
    by_cases hg : R.goesOn patience h = true
    · rw [if_pos hg]
      exact records_halves (hR.later hp) budget hf ha
        (fun p' hp' => records_guess (hR.later (Twins.le_trans hp hp')) budget front (patience - 1)
          (hf.later hp'))
        (fun p' hp' => records_guess (hR.later (Twins.le_trans hp hp')) budget last (patience - 1)
          (ha.later hp'))
    · rw [if_neg hg]
      exact .throw
  | var _ | native _ | foreign _ | named _ _ | lam _ _ =>
    unfold guess
    exact recordsAny_none
termination_by (patience, t.size)
decreasing_by
  · exact Rules.goesOn_lt hg fun hq => (size_split hq hsplit).1
  · exact Rules.goesOn_lt hg fun hq => (size_split hq hsplit).2

/-- What a search tells: the form or the guess is recorded. -/
theorem records_canonicalize (hR : R.Steady ok p) (budget : Budget) (strict : Bool) {t : Term}
    (ht : t.Recorded ok p.heap) :
    Alike (canonicalize R budget t strict) (canonicalize R budget t strict) p
      fun c p' => ∀ u, c.canonical = some u → u.Recorded ok p'.heap := by
  unfold canonicalize
  apply (records_search hR budget ht).bind
  intro r p₁ hp hr
  split
  · next form steps =>
    refine .pure ?_
    rintro _ ⟨⟩
    exact hr form rfl
  · split
    · exact .throw_bind
    · apply (records_guess (hR.later hp) budget t patience (ht.later hp)).bind
      intro o p₂ _ ho
      exact .pure ho

end Term

namespace Naming

/-- A name is recorded with its definition and what is known of its canonical form. -/
structure Recorded (ok : Native → Prop) (n : Naming) (p : Twins) : Prop where
  definition : n.definition.Recorded ok p.heap
  canonical : ∀ u, n.canonical = some u → u.Recorded ok p.heap

theorem records_new (name : Literal) {t : Term} (arity : Amount) (proper terminal : Literal)
    {canonical : Option Term} (note : Literal) (ht : t.Recorded ok p.heap)
    (hc : ∀ u, canonical = some u → u.Recorded ok p.heap) :
    Alike (new name t arity proper terminal canonical note)
      (new name t arity proper terminal canonical note) p (Recorded ok) := by
  unfold new
  split
  · exact .throw
  · apply (Engine.alike_freshNode p).bind
    intro ident p₁ hp _
    exact .pure ⟨ht.later hp, fun u hu => (hc u hu).later hp⟩

theorem records_ofTerm (hR : R.Steady ok p) (budget : Budget) (name : Literal) {t : Term}
    (terminal : Option Literal) (canonize : Bool) (note : Literal) (ht : t.Recorded ok p.heap) :
    Alike (ofTerm R budget name t terminal canonize note)
      (ofTerm R budget name t terminal canonize note) p (Recorded ok) := by
  unfold ofTerm
  split
  · apply (Term.records_canonicalize hR budget false ht).bind
    intro c p₁ hp hc
    exact records_new name _ _ _ note (ht.later hp) hc
  · exact records_new name _ _ _ note ht nofun

end Naming

end Combinatory
