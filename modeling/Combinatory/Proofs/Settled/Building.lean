import Combinatory.Construction
import Combinatory.Proofs.Reading
import Combinatory.Proofs.Settled.Twins

/-!
# Building looks at no table

Applying, replacing a variable and closing a term over one give the same over twins, and make terms
of recorded applications, as long as the rules of the combinators at hand do so.
-/

namespace Combinatory

variable {ok : Native → Prop} {p p' : Twins} {R : Rules}

/-- Two runs of a computation make the same recorded term. -/
abbrev Records (ok : Native → Prop) (x : Engine Term) (p : Twins) : Prop :=
  Alike x x p fun t p' => t.Recorded ok p'.heap

/-- Two runs of a computation make the same recorded term, if any. -/
abbrev RecordsAny (ok : Native → Prop) (x : Engine (Option Term)) (p : Twins) : Prop :=
  Alike x x p fun o p' => ∀ t, o = some t → t.Recorded ok p'.heap

theorem recordsAny_none : RecordsAny ok (pure none) p := by
  refine .pure ?_
  rintro _ ⟨⟩

theorem recordsAny_some {t : Term} (ht : t.Recorded ok p.heap) :
    RecordsAny ok (pure (some t)) p := by
  refine .pure ?_
  rintro _ ⟨⟩
  exact ht

/-- What combinators do is a function of their arguments: from some twins on, it is the same over
both, and makes terms of recorded applications. -/
structure Rules.Steady (R : Rules) (ok : Native → Prop) (p : Twins) : Prop where
  numeral : ∀ n, ok (.numeral n)
  replacement : ∀ u, ok (.user u) → ∀ p', p ≤ p' → ∀ a, a.Recorded ok p'.heap →
    RecordsAny ok (R.replacement u a) p'
  contract : ∀ u, ok (.user u) → ∀ p', p ≤ p' → ∀ as, Term.RecordedAll ok p'.heap as →
    Records ok (R.contract u as) p'
  evaluate : ok .toNumeral → ∀ p', p ≤ p' → ∀ t, t.Recorded ok p'.heap →
    Records ok (R.evaluate t) p'

namespace Rules.Steady

/-- Steady rules stay steady. -/
theorem later (h : R.Steady ok p) (hp : p ≤ p') : R.Steady ok p' where
  numeral := h.numeral
  replacement u hu q hq := h.replacement u hu q (Twins.le_trans hp hq)
  contract u hu q hq := h.contract u hu q (Twins.le_trans hp hq)
  evaluate hn q hq := h.evaluate hn q (Twins.le_trans hp hq)

/-- Where no combinator looks at the rules, they do not matter. -/
theorem of_pure (R : Rules) (p : Twins) : R.Steady (fun c => c.isPure = true) p where
  numeral _ := rfl
  replacement _ hu := nomatch hu
  contract _ hu := nomatch hu
  evaluate hn := nomatch hn

end Rules.Steady

namespace Native

theorem records_replacement (hR : R.Steady ok p) {c : Native} (hc : ok c) {a : Term}
    (ha : a.Recorded ok p.heap) : RecordsAny ok (c.replacement R a) p := by
  unfold replacement
  split
  · split
    · next n =>
      split
      · exact recordsAny_some (hR.numeral (n + 1))
      · exact .throw
    · exact recordsAny_none
  · exact .throw
  · next u =>
    split
    · exact hR.replacement u hc p p.le_refl a ha
    · exact recordsAny_none
  · exact recordsAny_none

end Native

namespace Term

/-! ### Application -/

/-- An application made as it stands is recorded. -/
theorem records_node {h : Term} {as : List Term} (hh : h.Recorded ok p.heap)
    (has : RecordedAll ok p.heap as) : Records ok (Engine.node h as) p := by
  apply (Engine.alike_node p h as).imp
  rintro _ p' hp ⟨n, rfl, hn⟩
  exact ⟨hn, hh.later hp, has.later hp⟩

theorem records_extend : ∀ (as : List Term) {p : Twins} {t : Term}, R.Steady ok p →
    t.Recorded ok p.heap → RecordedAll ok p.heap as → Records ok (extend R t as) p
  | [], p, t, _, ht, _ => by
    unfold extend
    exact .pure ht
  | a :: as, p, t, hR, ht, has => by
    unfold extend
    split
    · exact records_node ht.2.1 (recordedAll_append.mpr ⟨ht.2.2, has⟩)
    · apply (Native.records_replacement hR ht has.1).bind
      intro o p₁ hp ho
      cases o with
      | some r => exact records_extend as (hR.later hp) (ho r rfl) (has.2.later hp)
      | none => exact records_node (Recorded.later ht hp) (has.later hp)
    · exact records_node ht has

theorem records_apply (hR : R.Steady ok p) {t : Term} {as : List Term}
    (ht : t.Recorded ok p.heap) (has : RecordedAll ok p.heap as) :
    Records ok (apply R t as) p := by
  unfold apply
  split
  · exact .throw
  · exact records_extend as hR ht has

/-- An application made as it stands is recorded. -/
theorem records_application {h : Term} {as : List Term} (hh : h.Recorded ok p.heap)
    (has : RecordedAll ok p.heap as) : Records ok (application h as) p := by
  unfold application
  split
  · exact .throw
  · exact records_node hh has

/-! ### Replacing a variable -/

/-- Closing a body over a variable makes a recorded term. -/
def RecordsClosing (R : Rules) (ok : Native → Prop)
    (reclose : Variable → Term → Engine Term) : Prop :=
  ∀ (p : Twins) (w : Variable) (b : Term), R.Steady ok p → b.Recorded ok p.heap →
    Records ok (reclose w b) p

mutual

theorem records_replace {reclose : Variable → Term → Engine Term}
    (hre : RecordsClosing R ok reclose) {v : Variable} {value : Term} : ∀ (t : Term) {p : Twins},
    R.Steady ok p → t.Recorded ok p.heap → value.Recorded ok p.heap →
      RecordsAny ok (replace R reclose t v value) p
  | var w, p, _, _, hv => by
    unfold replace
    refine .pure fun u hu => ?_
    split at hu
    · cases hu
      exact hv
    · cases hu
  | native c, p, _, _, _ => by
    unfold replace
    exact recordsAny_none
  | foreign x, p, _, _, _ => by
    unfold replace
    exact recordsAny_none
  | named info d, p, hR, ht, hv => by
    unfold replace
    exact records_replace hre d hR ht hv
  | lam w b, p, hR, ht, hv => by
    unfold replace
    split
    · exact recordsAny_none
    · apply (records_replace hre b hR ht hv).bind
      intro o p₁ hp ho
      cases o with
      | some b' =>
        apply (hre p₁ w b' (hR.later hp) (ho b' rfl)).bind
        intro u p₂ _ hu
        exact recordsAny_some hu
      | none => exact recordsAny_none
  | app n h as, p, hR, ht, hv => by
    unfold replace
    apply (records_replace hre h hR ht.2.1 hv).bind
    intro h' p₁ hp₁ hh
    apply (records_replaceAll hre as (hR.later hp₁) (ht.2.2.later hp₁) (hv.later hp₁)).bind
    intro as' p₂ hp₂ has
    split
    · exact recordsAny_none
    · have head : (h'.getD h).Recorded ok p₂.heap := by
        cases h' with
        | some u => exact (hh u rfl).later hp₂
        | none => exact ht.2.1.later (Twins.le_trans hp₁ hp₂)
      apply (records_apply (hR.later (Twins.le_trans hp₁ hp₂)) head has).bind
      intro u p₃ _ hu
      exact recordsAny_some hu

theorem records_replaceAll {reclose : Variable → Term → Engine Term}
    (hre : RecordsClosing R ok reclose) {v : Variable} {value : Term} :
    ∀ (ts : List Term) {p : Twins}, R.Steady ok p → RecordedAll ok p.heap ts →
      value.Recorded ok p.heap →
        Alike (replaceAll R reclose ts v value) (replaceAll R reclose ts v value) p
          fun qs p' => RecordedAll ok p'.heap (qs.map fun q => q.2.getD q.1)
  | [], p, _, _, _ => by
    unfold replaceAll
    exact .pure trivial
  | t :: ts, p, hR, hts, hv => by
    unfold replaceAll
    apply (records_replace hre t hR hts.1 hv).bind
    intro o p₁ hp₁ ho
    apply (records_replaceAll hre ts (hR.later hp₁) (hts.2.later hp₁) (hv.later hp₁)).bind
    intro qs p₂ hp₂ hqs
    refine .pure ⟨?_, hqs⟩
    cases o with
    | some u => exact (ho u rfl).later hp₂
    | none => exact hts.1.later (Twins.le_trans hp₁ hp₂)

end

/-! ### Closing a term over a variable -/

/-- What is closed over a variable is recorded. -/
abbrev RecordsBody (ok : Native → Prop) (x : Engine (Variable × Term)) (p : Twins) : Prop :=
  Alike x x p fun q p' => q.2.Recorded ok p'.heap

private theorem records_closed {reclose : Variable → Term → Engine Term}
    (hre : RecordsClosing R ok reclose) (hR : R.Steady ok p) {v : Variable} {body : Term}
    (hb : body.Recorded ok p.heap) :
    RecordsBody ok (do
      let w ← Engine.freshVariable v.name
      return (w, (← replace R reclose body v (var w)).getD body)) p := by
  apply (Engine.alike_freshVariable p v.name).bind
  intro w p₁ hp₁ _
  have hw : (var w).Recorded ok p₁.heap := trivial
  apply (records_replace hre body (hR.later hp₁) (hb.later hp₁) hw).bind
  intro o p₂ hp₂ ho
  refine .pure ?_
  cases o with
  | some u => exact ho u rfl
  | none => exact hb.later (Twins.le_trans hp₁ hp₂)

theorem records_closeWithin (depth : Nat) (hR : R.Steady ok p) {v : Variable} {body : Term}
    (hb : body.Recorded ok p.heap) : RecordsBody ok (closeWithin R depth v body) p := by
  induction depth generalizing p v body with
  | zero =>
    unfold closeWithin
    split
    · exact .throw
    · exact records_closed (fun _ _ _ _ _ => .throw) hR hb
    · next h _ => cases h
  | succ depth ih =>
    unfold closeWithin
    split
    · exact .throw
    · next h _ => cases h
    · next h _ =>
      cases h
      refine records_closed ?_ hR hb
      intro p₁ w b hR₁ hb₁
      apply (ih hR₁ hb₁).bind
      intro q p₂ _ hq
      exact .pure hq

theorem records_close (hR : R.Steady ok p) {v : Variable} {body : Term}
    (hb : body.Recorded ok p.heap) : RecordsBody ok (close R v body) p :=
  records_closeWithin _ hR hb

theorem records_abstract (hR : R.Steady ok p) {v : Variable} {body : Term}
    (hb : body.Recorded ok p.heap) : Records ok (abstract R v body) p := by
  apply (records_close hR hb).bind
  intro q p₁ _ hq
  exact .pure hq

theorem records_abstractAll (vs : List Variable) (hR : R.Steady ok p) {body : Term}
    (hb : body.Recorded ok p.heap) : Records ok (abstractAll R vs body) p := by
  induction vs generalizing p with
  | nil =>
    unfold abstractAll
    exact .pure hb
  | cons v vs ih =>
    unfold abstractAll
    apply (ih hR hb).bind
    intro u p₁ hp hu
    exact records_abstract (hR.later hp) hu

theorem records_subst (hR : R.Steady ok p) {t value : Term} {v : Variable}
    (ht : t.Recorded ok p.heap) (hv : value.Recorded ok p.heap) :
    RecordsAny ok (subst R t v value) p :=
  records_replace (fun _ _ _ hR hb => records_abstract hR hb) t hR ht hv

theorem records_instantiate (hR : R.Steady ok p) {v : Variable} {b a : Term}
    (hb : b.Recorded ok p.heap) (ha : a.Recorded ok p.heap) :
    Records ok (instantiate R v b a) p := by
  apply (records_subst hR hb ha).bind
  intro o p₁ hp ho
  refine .pure ?_
  cases o with
  | some u => exact ho u rfl
  | none => exact hb.later hp

private theorem records_lambdas (hR : R.Steady ok p) (binders : List Term) {body : Term}
    (hb : body.Recorded ok p.heap) : Records ok (lambdas R binders body) p := by
  unfold lambdas
  split
  · exact .throw_bind
  · apply (Engine.alike_ofExcept p (distinctBinders [] binders)).bind
    intro vs p₁ hp _
    exact records_abstractAll vs (hR.later hp) (hb.later hp)

theorem records_lambdaOver (hR : R.Steady ok p) (listed : Bool) (binders : List Term)
    {body : Term} (hb : body.Recorded ok p.heap) :
    Records ok (lambdaOver R listed binders body) p := by
  unfold lambdaOver
  split
  · split
    · exact records_lambdas hR _ hb
    · unfold lambda
      split
      · exact records_abstract hR hb
      · exact .throw
  · exact records_lambdas hR _ hb

end Term

end Combinatory
