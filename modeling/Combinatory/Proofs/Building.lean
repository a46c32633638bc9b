import Combinatory.Construction
import Combinatory.Naming
import Combinatory.Proofs.Meaning.Canonical

/-!
# Terms as they are built

A history of constructions mints free variables and puts terms together from terms that were built
before: combinators and numerals, applications, abstractions over free variables, and names. In
between, anything else may happen. Every binder is minted anew by the abstraction that makes it, so
no free variable is ever a binder: a term that was built fits the scope of its own free variables
(`Builds.fits`), and whatever means it there keeps its meaning.
-/

namespace Combinatory

open LambdaTerm (Converts)
open Engine (Ensures)

/-- The terms that have been built when the engine has reached a store. -/
inductive Builds : Store → List Term → Prop where
  | start : Builds {} []
  /-- Whatever else is done in between takes no identity back. -/
  | elapse {s s' : Store} {ts : List Term} (h : Builds s ts) (hs : s ≤ s') : Builds s' ts
  | mint {s s' : Store} {ts : List Term} {name : String} {v : Variable} (h : Builds s ts)
      (hv : Engine.freshVariable name s = .ok v s') : Builds s' (.var v :: ts)
  | native {s : Store} {ts : List Term} {c : Native} (h : Builds s ts) (hc : c.isPure = true) :
      Builds s (.native c :: ts)
  | apply {s s' : Store} {ts as : List Term} {R : Rules} {f u : Term} (h : Builds s ts)
      (hf : f ∈ ts) (has : ∀ a ∈ as, a ∈ ts) (hu : f.apply R as s = .ok u s') :
      Builds s' (u :: ts)
  | lambda {s s' : Store} {ts binders : List Term} {R : Rules} {listed : Bool} {body u : Term}
      (h : Builds s ts) (hbinders : ∀ b ∈ binders, b ∈ ts) (hbody : body ∈ ts)
      (hu : Term.lambdaOver R listed binders body s = .ok u s') : Builds s' (u :: ts)
  | define {s s' : Store} {ts : List Term} {R : Rules} {budget : Budget} {name note : Literal}
      {t : Term} {terminal : Option Literal} {canonize : Bool} {n : Naming} (h : Builds s ts)
      (ht : t ∈ ts) (hn : Naming.ofTerm R budget name t terminal canonize note s = .ok n s') :
      Builds s' (n.term :: ts)

/-- An application is built from what it applies and what it is applied to. -/
theorem Builds.applied {s s' : Store} {ts l : List Term} {R : Rules} {f u : Term} (h : Builds s ts)
    (hmem : ∀ t ∈ f :: l, t ∈ ts) (hu : f.apply R l s = .ok u s') : Builds s' (u :: ts) :=
  .apply h (hmem f (.head _)) (fun a ha => hmem a (.tail _ ha)) hu

variable {Γ : Scope} {s : Store}

namespace Term

/-- The binders of a list are terms of the list. -/
private theorem var_mem_of_distinctBinders {ts : List Term} {seen : List String}
    {vs : List Variable} (h : distinctBinders seen ts = .ok vs) {v : Variable} (hv : v ∈ vs) :
    var v ∈ ts := by
  induction ts generalizing seen vs with
  | nil =>
    cases h
    cases hv
  | cons t ts ih =>
    unfold distinctBinders at h
    split at h
    · next heq => cases heq
    · next w ws heq =>
      cases heq
      split at h
      · cases h
      · cases hrest : distinctBinders (w.name :: seen) ts with
        | error e =>
          rw [hrest] at h
          cases h
        | ok rest =>
          rw [hrest] at h
          cases h
          obtain rfl | hv := List.mem_cons.mp hv
          · exact List.mem_cons_self
          · exact List.mem_cons_of_mem _ (ih hrest hv)
    · cases h

/-- Variables whose names differ can be abstracted over. -/
private theorem distinctBinders_eq {seen : List String} {vs : List Variable}
    (names : (vs.map Variable.name).Nodup) (hseen : ∀ v ∈ vs, v.name ∉ seen) :
    distinctBinders seen (vs.map var) = .ok vs := by
  induction vs generalizing seen with
  | nil => rfl
  | cons v vs ih =>
    obtain ⟨hv, hvs⟩ := List.nodup_cons.mp names
    have rest : distinctBinders (v.name :: seen) (vs.map var) = .ok vs := by
      refine ih hvs fun w hw => ?_
      rw [List.mem_cons, not_or]
      exact ⟨fun heq => hv (heq ▸ List.mem_map_of_mem hw), hseen w (List.mem_cons_of_mem v hw)⟩
    have unseen : seen.contains v.name = false := by
      simpa using hseen v List.mem_cons_self
    rw [List.map_cons, distinctBinders, unseen, rest]
    rfl

/-- To abstract over a list of variables whose names differ is to abstract over one after other. -/
theorem lambdaOver_eq_abstractAll {R : Rules} {vs : List Variable} (hne : vs ≠ [])
    (names : (vs.map Variable.name).Nodup) (body : Term) :
    lambdaOver R true (vs.map var) body = abstractAll R vs body := by
  have distinct : distinctBinders [] (vs.map var) = .ok vs :=
    distinctBinders_eq names fun _ _ => List.not_mem_nil
  simp [lambdaOver, lambdas, hne, distinct, MonadExcept.ofExcept]

private theorem ensures_fits_lambdas (R : Rules) (hΓ : Γ.Minted s) {binders : List Term}
    {body : Term} (hbinders : FitsAll Γ s binders) (hbody : body.Fits Γ s) :
    Ensures (lambdas R binders body) s fun u s' => u.Fits Γ s' := by
  unfold lambdas
  split
  · exact .throw_bind
  · apply (Engine.ensures_ofExcept (distinctBinders [] binders) s).bind
    intro vs s₁ hs hvs
    have minted : ∀ v ∈ vs, s.Minted v := fun v hv =>
      hΓ.visible v (fitsAll_iff.mp hbinders _ (var_mem_of_distinctBinders hvs hv))
    apply (ensures_abstractAll (η := True) R vs (hΓ.later hs)
      (fun v hv => (minted v hv).mono hs) (.self ((hbody.later hs).mono (Γ.below_seeAll vs)))).imp
    intro u s' _ hu
    exact hu.fits

/-- An abstraction over free variables of a scope makes a term of the scope. -/
theorem ensures_fits_lambdaOver (R : Rules) (hΓ : Γ.Minted s) {listed : Bool}
    {binders : List Term} {body : Term} (hbinders : FitsAll Γ s binders) (hbody : body.Fits Γ s) :
    Ensures (lambdaOver R listed binders body) s fun u s' => u.Fits Γ s' := by
  unfold lambdaOver
  split
  · next t =>
    split
    · next ts hts =>
      cases t with
      | foreign x => exact hbinders.1.elim
      | _ => cases hts
    · unfold lambda
      split
      · next v _ =>
        apply (ensures_abstract (η := True) R hΓ
          (.self (hbody.mono (Γ.below_see v)))).imp
        intro u s' _ hu
        exact hu.fits
      · exact .throw
  · exact ensures_fits_lambdas R hΓ hbinders hbody

end Term

namespace Naming

/-- A name as the caller describes it has the arity and stands for the term that it was given. -/
theorem ensures_new (name : Literal) (t : Term) (arity : Amount) (proper terminal : Literal)
    (canonical : Option Term) (note : Literal) :
    Ensures (new name t arity proper terminal canonical note) s fun n _ =>
      n.info.arity = arity ∧ n.definition = t ∧ n.canonical = canonical := by
  unfold new
  split
  · exact .throw
  · apply (Engine.ensures_freshNode s).bind
    intro ident s₁ _ _
    exact .pure ⟨rfl, rfl, rfl⟩

/-- A new name stands for the term that it was given, and a canonical form that was found for it is
a term of the same scope. -/
theorem ensures_ofTerm (R : Rules) (budget : Budget) (name : Literal)
    (terminal : Option Literal) (canonize : Bool) (note : Literal) (hΓ : Γ.Sealed s) {t : Term}
    (ht : t.Fits Γ s) :
    Ensures (ofTerm R budget name t terminal canonize note) s fun n s' =>
      n.definition = t ∧ ∀ u, n.canonical = some u → u.Fits Γ s' := by
  unfold ofTerm
  split
  · apply (Term.ensures_canonicalize (η := True) R trivial budget false hΓ ht).bind
    intro c s₁ _ hc
    apply (ensures_new name t _ _ _ c.canonical note).imp
    rintro n s₂ hs ⟨-, hdef, hcanonical⟩
    exact ⟨hdef, fun u hu => (hc u (hcanonical ▸ hu)).fits.later hs⟩
  · apply (ensures_new name t _ _ _ none note).imp
    rintro n s₁ _ ⟨-, hdef, hcanonical⟩
    exact ⟨hdef, fun u hu => nomatch hcanonical ▸ hu⟩

/-- Whether or not its canonical form is looked for, a new name waits for a number of arguments and
stands for the term that it was given. -/
theorem arity_of_ofTerm {R : Rules} {budget : Budget} {name note : Literal} {t : Term}
    {terminal : Option Literal} {canonize : Bool} {n : Naming} {s s' : Store}
    (h : ofTerm R budget name t terminal canonize note s = .ok n s') :
    (∃ k : Nat, n.info.arity = .number k) ∧ n.definition = t := by
  cases canonize with
  | false =>
    obtain ⟨-, harity, hdef, -⟩ := ensures_new _ _ _ _ _ _ _ _ _ h
    exact ⟨⟨0, harity⟩, hdef⟩
  | true =>
    obtain ⟨c, s₁, -, h⟩ := Engine.bind_ok_iff.mp h
    obtain ⟨-, harity, hdef, -⟩ := ensures_new _ _ _ _ _ _ _ _ _ h
    exact ⟨⟨_, harity⟩, hdef⟩

end Naming

namespace Builds

/-- All that was built is a term over minted variables, none of which it binds. -/
theorem exists_scope {ts : List Term} (h : Builds s ts) :
    ∃ F, (Scope.ofFree F).Sealed s ∧ Term.FitsAll (.ofFree F) s ts := by
  induction h with
  | start => exact ⟨∅, ⟨fun _ hv => hv, fun _ hv => hv.elim⟩, trivial⟩
  | elapse h hs ih =>
    obtain ⟨F, hF, hts⟩ := ih
    exact ⟨F, hF.later hs, hts.later hs⟩
  | mint h hv ih =>
    obtain ⟨F, hF, hts⟩ := ih
    obtain ⟨hs, hfresh, hm⟩ := Engine.ensures_freshVariable _ _ _ _ hv
    refine ⟨_, (hF.later hs).bind hm, Set.mem_insert _ F, ?_⟩
    rw [Term.fitsAll_iff] at hts ⊢
    exact fun t ht => ((hts t ht).bind_fresh hfresh).later hs
  | native h hc ih =>
    obtain ⟨F, hF, hts⟩ := ih
    exact ⟨F, hF, hc, hts⟩
  | apply h hf has hu ih =>
    obtain ⟨F, hF, hts⟩ := ih
    have fits := Term.fitsAll_iff.mp hts
    have args := Term.fitsAll_iff.mpr fun a ha => fits a (has a ha)
    obtain ⟨hs, hu⟩ := Term.ensures_apply (η := True) _ (.self (fits _ hf)) (.self args) _ _ hu
    exact ⟨F, hF.later hs, hu.fits, hts.later hs⟩
  | lambda h hbinders hbody hu ih =>
    obtain ⟨F, hF, hts⟩ := ih
    have fits := Term.fitsAll_iff.mp hts
    have args := Term.fitsAll_iff.mpr fun b hb => fits b (hbinders b hb)
    obtain ⟨hs, hu⟩ := Term.ensures_fits_lambdaOver _ hF.minted args (fits _ hbody) _ _ hu
    exact ⟨F, hF.later hs, hu, hts.later hs⟩
  | define h ht hn ih =>
    obtain ⟨F, hF, hts⟩ := ih
    have fits := Term.fitsAll_iff.mp hts _ ht
    obtain ⟨hs, rfl, -⟩ := Naming.ensures_ofTerm _ _ _ _ _ _ hF fits _ _ hn
    exact ⟨F, hF.later hs, ⟨trivial, fits.later hs⟩, hts.later hs⟩

variable {ts : List Term} {t : Term}

/-- A term that was built fits the scope of its own free variables. -/
theorem fits (h : Builds s ts) (ht : t ∈ ts) : t.Fits (.ofFree { v | t.occurs v = true }) s := by
  obtain ⟨F, -, hts⟩ := h.exists_scope
  exact (Term.fitsAll_iff.mp hts t ht).ofFree_occurs

/-- The free variables of a term that was built have been minted. -/
theorem sealed (h : Builds s ts) (ht : t ∈ ts) :
    (Scope.ofFree { v | t.occurs v = true }).Sealed s := by
  obtain ⟨F, hF, hts⟩ := h.exists_scope
  refine ⟨fun _ hv => hv, fun v hv => hF.taken v ?_⟩
  exact (Term.fitsAll_iff.mp hts t ht).visible hv

end Builds

/-! ### What is kept -/

/-- A term `u` stands for the same lambda term as `t`, up to a conversion, and no variable occurs
free in it that does not in `t`. -/
structure Term.KeepsMeaning (Same : LambdaTerm → LambdaTerm → Prop) (t u : Term) : Prop where
  converts : Same u.reading t.reading
  occurs : ∀ v, u.occurs v = true → t.occurs v = true

/-- What means a term in the scope of its free variables keeps its meaning. -/
theorem Means.keepsMeaning {η : Prop} {t u : Term}
    (h : Means η (.ofFree { v | t.occurs v = true }) s u t.reading) :
    t.KeepsMeaning (Converts η) u :=
  ⟨h.converts, fun _ hv => h.fits.visible hv⟩

end Combinatory
