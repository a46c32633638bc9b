import Combinatory.Proofs.Building
import Combinatory.Proofs.Meaning.Bracket
import Combinatory.Proofs.Meaning.LambdaForm
import Combinatory.Proofs.Workspace

/-!
# Binder hygiene

A caller asks for variables, takes combinators, and hands terms to the operations of the engine in
any order; what fails in between has minted variables all the same. Many operations take a lambda
apart, work on its body while the binder is free in it, and copy lambdas with their binders, but
each closes over a new binder again what it gives back. So no lambda of a term at hand binds a
variable that is bound again below it, all binders have been minted by operations, and what an
operation has minted occurs free in no term (`History.hygienic`). The invariant is that all terms at
hand fit one scope: of the variables that no operation has minted.
-/

namespace Combinatory

open Engine (Ensures)

namespace Term

/-! ### Binders -/

mutual

/-- Whether some lambda binds `v`, definitions of names included. -/
def binds (v : Variable) : Term → Bool
  | var _ => false
  | native _ => false
  | foreign _ => false
  | named _ d => binds v d
  | lam w b => w = v || binds v b
  | app _ h as => binds v h || bindsAny v as

/-- Whether some lambda in one of the terms binds `v`. -/
def bindsAny (v : Variable) : List Term → Bool
  | [] => false
  | a :: as => binds v a || bindsAny v as

end

mutual

/-- Whether no lambda binds a variable that is bound again below it, definitions of names
included. -/
def unshadowed : Term → Bool
  | var _ => true
  | native _ => true
  | foreign _ => true
  | named _ d => unshadowed d
  | lam v b => !binds v b && unshadowed b
  | app _ h as => unshadowed h && unshadowedAll as

/-- Whether this holds of all terms of a list. -/
def unshadowedAll : List Term → Bool
  | [] => true
  | a :: as => unshadowed a && unshadowedAll as

end

mutual

/-- What a term of a scope binds has been minted, and the scope allows binding it. -/
theorem Fits.of_binds {s : Store} {v : Variable} : ∀ {t : Term} {Γ : Scope}, t.Fits Γ s →
    t.binds v = true → v ∉ Γ.taken ∧ s.Minted v
  | var _, _, _, h => by simp [binds] at h
  | native _, _, _, h => by simp [binds] at h
  | foreign _, _, ht, _ => ht.elim
  | named _ d, _, ht, h => Fits.of_binds (t := d) ht.2 (by rwa [binds] at h)
  | lam w b, Γ, ht, h => by
    rw [binds, Bool.or_eq_true, decide_eq_true_iff] at h
    rcases h with rfl | h
    · exact ⟨ht.1, ht.2.1⟩
    · obtain ⟨hv, hm⟩ := Fits.of_binds ht.2.2 h
      exact ⟨fun hmem => hv (Set.mem_insert_of_mem w hmem), hm⟩
  | app _ hd as, _, ht, h => by
    rw [binds, Bool.or_eq_true] at h
    rcases h with h | h
    · exact Fits.of_binds ht.2.1 h
    · exact FitsAll.of_bindsAny ht.2.2 h

/-- What terms of a scope bind has been minted, and the scope allows binding it. -/
theorem FitsAll.of_bindsAny {s : Store} {v : Variable} : ∀ {ts : List Term} {Γ : Scope},
    FitsAll Γ s ts → bindsAny v ts = true → v ∉ Γ.taken ∧ s.Minted v
  | [], _, _, h => by simp [bindsAny] at h
  | _ :: _, _, hts, h => by
    rw [bindsAny, Bool.or_eq_true] at h
    rcases h with h | h
    · exact Fits.of_binds hts.1 h
    · exact FitsAll.of_bindsAny hts.2 h

end

mutual

/-- No lambda of a term of a scope is shadowed, as its variable is taken below it. -/
theorem Fits.unshadowed {s : Store} : ∀ {t : Term} {Γ : Scope}, t.Fits Γ s →
    t.unshadowed = true
  | var _, _, _ => rfl
  | native _, _, _ => rfl
  | foreign _, _, ht => ht.elim
  | named _ d, _, ht => Fits.unshadowed (t := d) ht.2
  | lam v b, Γ, ht => by
    have free : b.binds v = false := by
      by_contra h
      exact (ht.2.2.of_binds (Bool.eq_true_of_not_eq_false h)).1 (Set.mem_insert v _)
    rw [Term.unshadowed, free, Fits.unshadowed ht.2.2]
    rfl
  | app _ hd as, _, ht => by
    rw [Term.unshadowed, Fits.unshadowed ht.2.1, FitsAll.unshadowedAll ht.2.2]
    rfl

theorem FitsAll.unshadowedAll {s : Store} : ∀ {ts : List Term} {Γ : Scope}, FitsAll Γ s ts →
    Term.unshadowedAll ts = true
  | [], _, _ => rfl
  | _ :: _, _, hts => by
    rw [Term.unshadowedAll, Fits.unshadowed hts.1, FitsAll.unshadowedAll hts.2]
    rfl

end

end Term

/-! ### Operations -/

/-- A conversion of a term, or a search for other forms of it. -/
inductive Conversion where
  | expand (t : Term)
  | bracketForm (limits : Budget) (maxSteps : Amount) (t : Term)
  | bracketForms (limits : Budget) (perStep : Amount) (limit : Nat) (t : Term)
  | naiveForm (budget : Budget) (t : Term)
  | lambdaForms (budget : Budget) (limit : Option Nat) (t : Term)
  | lighterForms (budget : Budget) (ceiling : Ceiling) (limit : Option Nat) (t : Term)

namespace Conversion

/-- The term that is converted. -/
def input : Conversion → Term
  | expand t => t
  | bracketForm _ _ t => t
  | bracketForms _ _ _ t => t
  | naiveForm _ t => t
  | lambdaForms _ _ t => t
  | lighterForms _ _ _ t => t

/-- The terms that a conversion gives. -/
def perform (R : Rules) : Conversion → Engine (List Term)
  | expand t => do return [← t.expand R]
  | bracketForm limits maxSteps t => do return [← t.bracketForm R limits maxSteps]
  | bracketForms limits perStep limit t => do
    return (← t.bracketForms R limits perStep limit .ok).items.map (·.term)
  | naiveForm budget t => do return [← t.naiveForm R budget]
  | lambdaForms budget limit t => do
    return (← t.lambdaForms R budget limit .ok).items.map (·.term)
  | lighterForms budget ceiling limit t => do
    return (← t.lighterForms R budget ceiling limit .ok).items.map (·.term)

end Conversion

/-- An operation of the engine on terms. -/
inductive Operation where
  | call (c : Call)
  | convert (c : Conversion)

namespace Operation

/-- The terms that an operation is about. -/
def inputs : Operation → List Term
  | call c => c.inputs
  | convert c => [c.input]

/-- The terms that an operation gives. -/
def perform (R : Rules) : Operation → Engine (List Term)
  | call c => c.perform R
  | convert c => c.perform R

end Operation

variable {Γ : Scope} {s s' : Store}

namespace Term

private theorem fitsAll_toList {o : Option Term} (h : ∀ u, o = some u → u.Fits Γ s) :
    FitsAll Γ s o.toList :=
  fitsAll_iff.mpr fun u hu => h u (Option.mem_toList.mp hu)

/-- What means a lambda term is a term of the scope. -/
private theorem ensures_fits {x : Engine Term} {T : LambdaTerm}
    (hx : Ensures x s fun u s' => Means True Γ s' u T) :
    Ensures x s fun u s' => FitsAll Γ s' [u] :=
  hx.imp fun _ _ _ hu => ⟨hu.fits, trivial⟩

/-- What is listed as it is are terms of the scope if they all mean a lambda term. -/
private theorem ensures_fits_items {α : Type} {x : Engine (Listing α)} {term : α → Term}
    {T : LambdaTerm} (hx : Ensures x s fun l s' =>
      ∀ y ∈ l.items, ∃ r, Except.ok (ε := Failure) r = .ok y ∧ Means True Γ s' (term r) T) :
    Ensures x s fun l s' => FitsAll Γ s' (l.items.map term) := by
  apply hx.imp
  intro l s₁ _ hl
  refine fitsAll_iff.mpr fun u hu => ?_
  obtain ⟨y, hy, rfl⟩ := List.mem_map.mp hu
  obtain ⟨r, ⟨⟩, hr⟩ := hl y hy
  exact hr.fits

end Term

/-- The calls of the library give terms of the scope that their inputs are terms of. -/
theorem Call.ensures_fits_perform (R : Rules) (hΓ : Γ.Sealed s) (names : Γ.names) (c : Call)
    (hc : Term.FitsAll Γ s c.inputs) :
    Ensures (c.perform R) s fun us s' => Term.FitsAll Γ s' us := by
  cases c with
  | apply head args =>
    exact (Term.ensures_fits (Term.ensures_apply R (.self hc.1) (.self hc.2))).map
  | application head args =>
    apply Ensures.map
    unfold Term.application
    split
    · exact .throw
    · next hne =>
      rw [List.isEmpty_iff] at hne
      exact Term.ensures_fits (Term.ensures_node hne hc.1 hc.2 (.refl _))
  | lambda listed binders body =>
    apply Ensures.map
    apply (Term.ensures_fits_lambdaOver R hΓ.minted hc.2 hc.1).imp
    exact fun u s₁ _ hu => ⟨hu, trivial⟩
  | define budget name t terminal canonize note =>
    apply Ensures.map
    apply (Naming.ensures_ofTerm R budget name terminal canonize note hΓ hc.1).imp
    rintro n s₁ hs ⟨rfl, hcanonical⟩
    exact ⟨⟨names, hc.1.later hs⟩, Term.fitsAll_toList hcanonical⟩
  | describe name t arity proper terminal note =>
    apply Ensures.map
    apply (Naming.ensures_new name t arity proper terminal none note).imp
    rintro n s₁ hs ⟨-, rfl, -⟩
    exact ⟨⟨names, hc.1.later hs⟩, trivial⟩
  | subst t v value =>
    obtain ⟨ht, hvalue, -⟩ := hc
    have insertable : Term.Insertable Γ s value :=
      ⟨hΓ.minted, hvalue, fun w hw => hΓ.visible w (hvalue.visible hw)⟩
    apply Ensures.map
    apply (Term.ensures_replace R (Term.recloses_abstract (η := True) R) t insertable
      (ht.mono (Γ.below_see v))).imp
    intro o s₁ _ ho
    refine Term.fitsAll_toList fun u hu => ?_
    rw [hu, Option.getD_some] at ho
    exact ho.fits
  | step t =>
    apply Ensures.map
    apply (Term.ensures_step (η := True) R t hΓ hc.1).imp
    intro o s₁ _ ho
    refine Term.fitsAll_iff.mpr fun u hu => ?_
    obtain ⟨r, hr, rfl⟩ := List.mem_map.mp hu
    exact (ho r (Option.mem_toList.mp hr)).fits
  | run budget t args strict =>
    apply Ensures.map
    apply (Term.ensures_run (η := True) R budget strict hΓ (.self hc.1) (.self hc.2)).imp
    exact fun out s₁ _ hout => ⟨hout.fits, trivial⟩
  | walk budget limit t =>
    exact (Term.ensures_fits_items
      (Term.ensures_walk R budget limit .ok hΓ (.self hc.1))).map
  | canonicalize budget t strict =>
    apply Ensures.map
    apply (Term.ensures_canonicalize (η := True) R trivial budget strict hΓ hc.1).imp
    exact fun c s₁ _ hform => Term.fitsAll_toList fun u hu => (hform u hu).fits

/-- Conversions give terms of the scope that their input is a term of. -/
theorem Conversion.ensures_fits_perform (R : Rules) (hΓ : Γ.Sealed s) (c : Conversion)
    (hc : c.input.Fits Γ s) : Ensures (c.perform R) s fun us s' => Term.FitsAll Γ s' us := by
  cases c with
  | expand t => exact (Term.ensures_fits (Term.ensures_expand R t hΓ.minted hc)).map
  | bracketForm limits maxSteps t =>
    exact (Term.ensures_fits (Term.ensures_bracketForm R trivial limits maxSteps hΓ hc)).map
  | bracketForms limits perStep limit t =>
    exact (Term.ensures_fits_items
      (Term.ensures_bracketForms R trivial limits perStep limit .ok hΓ hc)).map
  | naiveForm budget t =>
    exact (Term.ensures_fits (Term.ensures_naiveForm R trivial budget t hΓ hc)).map
  | lambdaForms budget limit t =>
    exact (Term.ensures_fits_items
      (Term.ensures_lambdaForms R trivial budget limit .ok hΓ hc)).map
  | lighterForms budget ceiling limit t =>
    exact (Term.ensures_fits_items
      (Term.ensures_lighterForms R trivial budget ceiling limit .ok hΓ hc)).map

/-- Operations give terms of the scope that their inputs are terms of. -/
theorem Operation.ensures_fits_perform (R : Rules) (hΓ : Γ.Sealed s) (names : Γ.names)
    (o : Operation) (ho : Term.FitsAll Γ s o.inputs) :
    Ensures (o.perform R) s fun us s' => Term.FitsAll Γ s' us := by
  cases o with
  | call c => exact c.ensures_fits_perform R hΓ names ho
  | convert c => exact c.ensures_fits_perform R hΓ ho.1

/-! ### Histories -/

/-- The binders of all lambdas that may have been made while the engine went from one store to
another: a lambda is made by closing a term over a variable. -/
def Store.binders (s s' : Store) : Set Variable :=
  { w | s'.Minted w ∧ ∃ (R : Rules) (v : Variable) (body b : Term) (s₁ s₂ : Store),
    s ≤ s₁ ∧ Term.close R v body s₁ = .ok (w, b) s₂ }

/-- The binder of a lambda is new when the lambda is made. -/
theorem Term.not_minted_of_close {R : Rules} {v w : Variable} {body b : Term}
    (h : close R v body s = .ok (w, b) s') : ¬ s.Minted w := by
  have closed {reclose : Variable → Term → Engine Term} (h : (do
      let w ← Engine.freshVariable v.name
      return (w, (← replace R reclose body v (var w)).getD body) : Engine (Variable × Term)) s =
        .ok (w, b) s') : ¬ s.Minted w := by
    obtain ⟨u, s₁, hu, h⟩ := Engine.bind_ok_iff.mp h
    obtain ⟨o, s₂, -, h⟩ := Engine.bind_ok_iff.mp h
    cases h
    exact (Engine.ensures_freshVariable _ _ _ _ hu).2.1
  unfold close at h
  generalize body.rebuildDepth = depth at h
  unfold closeWithin at h
  split at h
  · cases h
  · exact closed h
  · exact closed h

/-- As the binder of a lambda is minted when the lambda is made, these are all variables that were
minted in between. -/
theorem Store.mem_binders_iff {w : Variable} : w ∈ s.binders s' ↔ ¬ s.Minted w ∧ s'.Minted w := by
  constructor
  · rintro ⟨hw, R, v, body, b, s₁, s₂, hs, hclose⟩
    exact ⟨fun h => Term.not_minted_of_close hclose (h.mono hs), hw⟩
  · rintro ⟨hfresh, hw⟩
    refine ⟨hw, Rules.undeclared, w, .native .I, .native .I, ⟨w.ident, 0, ∅⟩,
      ⟨w.ident + 1, 0, ∅⟩, Int.not_lt.mp hfresh, ?_⟩
    simp [Term.close, Term.rebuildDepth, Term.lambdaDepth, Rules.hookDepth, Term.closeWithin,
      Term.replace, Engine.freshVariable, bind, EStateM.bind, pure, EStateM.pure]

/-- What a caller has at hand after some operations, and the binders of all lambdas that may have
been made in the course of them. -/
inductive History : Store → Set Variable → List Term → Prop where
  | start : History {} ∅ []
  | ask {s s' : Store} {made : Set Variable} {ts : List Term} {name : String} {v : Variable}
      (h : History s made ts) (hv : Engine.freshVariable name s = .ok v s') :
      History s' made (.var v :: ts)
  | native {s : Store} {made : Set Variable} {ts : List Term} {c : Native}
      (h : History s made ts) (hc : c.isPure = true) : History s made (.native c :: ts)
  | operate {s s' : Store} {made : Set Variable} {ts us : List Term} {R : Rules} {o : Operation}
      (h : History s made ts) (ho : ∀ t ∈ o.inputs, t ∈ ts) (hu : o.perform R s = .ok us s') :
      History s' (made ∪ s.binders s') (us ++ ts)
  /-- What an operation has made before it fails is made. -/
  | fail {s s' : Store} {made : Set Variable} {ts : List Term} {R : Rules} {o : Operation}
      {e : Failure} (h : History s made ts) (ho : ∀ t ∈ o.inputs, t ∈ ts)
      (he : o.perform R s = .error e s') : History s' (made ∪ s.binders s') ts

namespace History

variable {made : Set Variable} {ts : List Term}

/-- The scope of the variables that have been minted, but not for lambdas. -/
def asked (s : Store) (made : Set Variable) : Scope := .ofFree { v | s.Minted v ∧ v ∉ made }

theorem sealed_asked (s : Store) (made : Set Variable) : (asked s made).Sealed s :=
  ⟨fun _ hv => hv, fun _ hv => hv.1⟩

/-- As more variables are asked for, terms still bind none of them. -/
private theorem fitsAll_asked_later (h : Term.FitsAll (asked s made) s ts) (hs : s ≤ s') :
    Term.FitsAll (asked s' made) s' ts := by
  have fresh : ∀ v ∈ { v | ¬ s.Minted v }, ¬ s.Minted v := fun _ hv => hv
  have below : Scope.Below
      { asked s made with taken := { v | ¬ s.Minted v } ∪ (asked s made).taken }
      (asked s' made) := by
    refine ⟨fun v hv => ⟨hv.1.mono hs, hv.2⟩, fun v hv => ?_, id⟩
    by_cases hm : s.Minted v
    · exact .inr ⟨hm, hv.2⟩
    · exact .inl hm
  exact (h.take fresh).weaken hs below

/-- What an operation mints is not asked for. -/
private theorem asked_binders (hs : s ≤ s') : asked s' (made ∪ s.binders s') = asked s made := by
  refine congrArg Scope.ofFree (Set.ext fun v => ⟨fun hv => ?_, fun hv => ?_⟩)
  · refine ⟨?_, fun h => hv.2 (.inl h)⟩
    by_contra hm
    exact hv.2 (.inr (Store.mem_binders_iff.mpr ⟨hm, hv.1⟩))
  · refine ⟨hv.1.mono hs, fun h => h.elim hv.2 fun h => ?_⟩
    exact (Store.mem_binders_iff.mp h).1 hv.1

/-- What was minted before and what an operation mints has been minted. -/
private theorem minted_union (h : ∀ v ∈ made, s.Minted v) (hs : s ≤ s') :
    ∀ v ∈ made ∪ s.binders s', s'.Minted v
  | _, .inl hv => (h _ hv).mono hs
  | _, .inr hv => hv.1

/-- All terms at hand are terms over the variables that were asked for. -/
private theorem fitsAll (h : History s made ts) :
    (∀ v ∈ made, s.Minted v) ∧ Term.FitsAll (asked s made) s ts := by
  induction h with
  | start => exact ⟨fun _ hv => hv.elim, trivial⟩
  | ask h hv ih =>
    obtain ⟨minted, fits⟩ := ih
    obtain ⟨hs, hfresh, hm⟩ := Engine.ensures_freshVariable _ _ _ _ hv
    refine ⟨fun v hv => (minted v hv).mono hs, ⟨hm, ?_⟩, fitsAll_asked_later fits hs⟩
    exact fun hmem => hfresh (minted _ hmem)
  | native h hc ih => exact ⟨ih.1, hc, ih.2⟩
  | @operate s _ made ts us R o h ho hu ih =>
    obtain ⟨minted, fits⟩ := ih
    have inputs := Term.fitsAll_iff.mpr fun t ht => Term.fitsAll_iff.mp fits t (ho t ht)
    obtain ⟨hs, given⟩ :=
      o.ensures_fits_perform R (sealed_asked s made) trivial inputs _ _ hu
    refine ⟨minted_union minted hs, ?_⟩
    rw [asked_binders hs]
    exact Term.fitsAll_append.mpr ⟨given, fits.later hs⟩
  | @fail s _ made ts R o _ h ho he ih =>
    obtain ⟨minted, fits⟩ := ih
    have inputs := Term.fitsAll_iff.mpr fun t ht => Term.fitsAll_iff.mp fits t (ho t ht)
    have hs := (o.ensures_fits_perform R (sealed_asked s made) trivial inputs).error _ _ he
    refine ⟨minted_union minted hs, ?_⟩
    rw [asked_binders hs]
    exact fits.later hs

/-- Binder hygiene: no lambda of a term at hand binds a variable that is bound again below it, and
no variable that is the binder of a lambda made in the course of the history occurs free in a term
at hand; all binders of terms at hand are such variables. -/
theorem hygienic (h : History s made ts) {t : Term} (ht : t ∈ ts) :
    t.unshadowed = true ∧ (∀ v, t.binds v = true → v ∈ made) ∧
      ∀ v ∈ made, t.occurs v = false := by
  have fits := Term.fitsAll_iff.mp h.fitsAll.2 t ht
  refine ⟨fits.unshadowed, fun v hv => ?_, fun v hv => ?_⟩
  · obtain ⟨hfree, hm⟩ := fits.of_binds hv
    by_contra hmade
    exact hfree ⟨hm, hmade⟩
  · by_contra hoccurs
    exact (fits.visible (Bool.eq_true_of_not_eq_false hoccurs)).2 hv

end History

/-! ### A lambda put into itself -/

namespace Grafting

/-- A variable that was asked for. -/
def x : Variable := ⟨"x", 1⟩

/-- Another one. -/
def y : Variable := ⟨"y", 2⟩

/-- The application `x y`. -/
def body : Term := .app 0 (.var x) [.var y]

/-- The lambda `λ y, x y`. -/
def term : Term := .lam ⟨"y", 3⟩ (.app 1 (.var x) [.var ⟨"y", 3⟩])

/-- The lambda with itself in place of `x`: the outer one has a new binder. -/
def grafted : Term := .lam ⟨"y", 4⟩ (.app 3 term [.var ⟨"y", 4⟩])

theorem exists_history :
    ∃ made, History ⟨5, 4, ∅⟩ made [grafted, term, body, .var y, .var x] := by
  have asked : History ⟨3, 0, ∅⟩ ∅ [.var y, .var x] := .ask (.ask .start rfl) rfl
  have applied : (Operation.call (.apply (.var x) [.var y])).perform Rules.undeclared ⟨3, 0, ∅⟩ =
      .ok [body] ⟨3, 1, ∅⟩ := rfl
  have abstracted : (Operation.call (.lambda true [.var y] body)).perform Rules.undeclared
      ⟨3, 1, ∅⟩ = .ok [term] ⟨4, 2, ∅⟩ := rfl
  have replaced : (Operation.call (.subst term x term)).perform Rules.undeclared ⟨4, 2, ∅⟩ =
      .ok [grafted] ⟨5, 4, ∅⟩ := rfl
  have whole := asked.operate (by simp [Operation.inputs, Call.inputs]) applied
  have lambda := whole.operate (by simp [Operation.inputs, Call.inputs]) abstracted
  exact ⟨_, lambda.operate (by simp [Operation.inputs, Call.inputs]) replaced⟩

end Grafting

/-- The binder of the inner lambda, which was free on the way, is not that of the outer one, and
occurs free no more. -/
theorem hygienic_sample :
    ∃ made, History ⟨5, 4, ∅⟩ made
        [Grafting.grafted, Grafting.term, Grafting.body, .var Grafting.y, .var Grafting.x] ∧
      Grafting.grafted.unshadowed = true ∧ ⟨"y", 3⟩ ∈ made ∧ ⟨"y", 4⟩ ∈ made ∧
      Grafting.grafted.occurs ⟨"y", 3⟩ = false := by
  obtain ⟨made, history⟩ := Grafting.exists_history
  obtain ⟨clean, binders, closed⟩ := history.hygienic (t := Grafting.grafted) List.mem_cons_self
  have inner : ⟨"y", 3⟩ ∈ made := binders _ rfl
  exact ⟨made, history, clean, inner, binders _ rfl, closed _ inner⟩

end Combinatory
