import Combinatory.Proofs.Scope
import Combinatory.Substitution

/-!
# Application and substitution keep the meaning

A term means a lambda term in a scope if it fits the scope and its reading converts to the lambda
term. Applying means application, replacing a variable means replacing it, and closing a term over a
variable means abstracting it (`ensures_apply`, `ensures_replace`, `recloses_abstract`). Replacing
goes below a lambda whose binder the value does not mention, since what occurs in the value is taken
there; the binder may be bound again inside the value until the lambda is closed over a new one.
-/

namespace Combinatory

open LambdaTerm (Converts)

variable {η : Prop}

/-- A term fits a scope, and its reading converts to a lambda term. -/
structure Means (η : Prop) (Γ : Scope) (s : Store) (t : Term) (T : LambdaTerm) : Prop where
  fits : t.Fits Γ s
  converts : Converts η t.reading T

namespace Means

variable {Γ Δ : Scope} {s s' : Store} {t : Term} {T U : LambdaTerm}

/-- A term that fits means its reading. -/
theorem self (ht : t.Fits Γ s) : Means η Γ s t t.reading := ⟨ht, .refl _⟩

/-- Meanings may be converted. -/
theorem trans (h : Means η Γ s t T) (hT : Converts η T U) : Means η Γ s t U :=
  ⟨h.fits, h.converts.trans hT⟩

/-- A term keeps its meaning later. -/
theorem later (h : Means η Γ s t T) (hs : s ≤ s') : Means η Γ s' t T :=
  ⟨h.fits.later hs, h.converts⟩

/-- A term keeps its meaning in every scope above. -/
theorem mono (h : Means η Γ s t T) (hΓ : Γ.Below Δ) : Means η Δ s t T :=
  ⟨h.fits.mono hΓ, h.converts⟩

/-- A body's meaning abstracted is what the lambda means. -/
theorem lam {v : Variable} (h : Means η (Γ.bind v) s t T) (hv : v ∉ Γ.taken) (hm : s.Minted v) :
    Means η Γ s (.lam v t) (T.abs v) :=
  ⟨⟨hv, hm, h.fits⟩, h.converts.abs v⟩

end Means

/-- The terms of a list mean some lambda terms, place by place. -/
abbrev MeansAll (η : Prop) (Γ : Scope) (s : Store) : List Term → List LambdaTerm → Prop :=
  List.Forall₂ (Means η Γ s)

namespace MeansAll

variable {Γ : Scope} {s s' : Store} {ts : List Term} {Ts : List LambdaTerm}

/-- Terms that fit mean their readings. -/
theorem self (hts : Term.FitsAll Γ s ts) : MeansAll η Γ s ts (Term.readings ts) := by
  induction ts with
  | nil => exact .nil
  | cons t ts ih => exact .cons (.self hts.1) (ih hts.2)

theorem fits (h : MeansAll η Γ s ts Ts) : Term.FitsAll Γ s ts := by
  induction h with
  | nil => trivial
  | cons h _ ih => exact ⟨h.fits, ih⟩

theorem converts (h : MeansAll η Γ s ts Ts) :
    List.Forall₂ (Converts η) (Term.readings ts) Ts := by
  induction h with
  | nil => exact .nil
  | cons h _ ih => exact .cons h.converts ih

end MeansAll

/-- What is shown of something whose term means a lambda term. -/
def Shows {α β : Type} (η : Prop) (Γ : Scope) (T : LambdaTerm) (term : α → Term)
    (view : α → Except Failure β) (y : β) : Prop :=
  ∃ x s, view x = .ok y ∧ Means η Γ s (term x) T

open Engine (Ensures)

/-! ### Application -/

/-- What replaces a combinator and its first argument means their application. -/
theorem Native.ensures_replacement (R : Rules) (Γ : Scope) (s : Store) {c : Native}
    (hc : c.isPure = true) (a : Term) :
    Ensures (c.replacement R a) s fun o s' => ∀ u, o = some u →
      Means η Γ s' u (.app c.reading a.reading) := by
  unfold Native.replacement
  split
  · split
    · next n =>
      split
      · refine .pure ?_
        rintro u ⟨⟩
        exact ⟨rfl, (Native.converts_successor_numeral n).symm⟩
      · exact .throw
    · exact .pure fun u h => nomatch h
  · cases hc
  · cases hc
  · exact .pure fun u h => nomatch h

namespace Term

variable {Γ : Scope} {s : Store}

/-- An application that is made as it stands means the application. -/
theorem ensures_node {h : Term} {as : List Term} {T : LambdaTerm} (hne : as ≠ [])
    (hh : h.Fits Γ s) (has : FitsAll Γ s as) (hT : Converts η (h.reading.apps (readings as)) T) :
    Ensures (Engine.node h as) s fun u s' => Means η Γ s' u T := by
  apply (Engine.ensures_node h as s).imp
  rintro u s' hs ⟨n, rfl⟩
  exact ⟨⟨hne, hh.later hs, has.later hs⟩, hT⟩

private theorem ensures_extend (R : Rules) : ∀ (as : List Term) {t : Term} {s : Store},
    t.Fits Γ s → FitsAll Γ s as →
      Ensures (extend R t as) s fun u s' => Means η Γ s' u (t.reading.apps (readings as))
  | [], t, s, ht, _ => by
    unfold extend
    exact .pure (.self ht)
  | a :: as, t, s, ht, has => by
    unfold extend
    split
    · next n h bs =>
      have nonempty : bs ++ a :: as ≠ [] := List.append_ne_nil_of_right_ne_nil bs (by simp)
      refine ensures_node nonempty ht.2.1 (fitsAll_append.mpr ⟨ht.2.2, has⟩) (.of_eq ?_)
      rw [readings_append, LambdaTerm.apps_append, reading]
    · next c =>
      apply (c.ensures_replacement (η := η) R Γ s ht a).bind
      intro o s₁ hs hr
      cases o with
      | some r =>
        have means := hr r rfl
        apply (ensures_extend R as means.fits (has.2.later hs)).imp
        intro u s' _ hu
        exact hu.trans (means.converts.apps_left _)
      | none => exact ensures_node (List.cons_ne_nil a as) (ht.later hs) (has.later hs) (.refl _)
    · exact ensures_node (List.cons_ne_nil a as) ht has (.refl _)

/-- Applying means application. -/
theorem ensures_apply (R : Rules) {t : Term} {as : List Term} {T : LambdaTerm}
    {Ts : List LambdaTerm} (ht : Means η Γ s t T) (has : MeansAll η Γ s as Ts) :
    Ensures (apply R t as) s fun u s' => Means η Γ s' u (T.apps Ts) := by
  rw [apply_eq_extend R t has.fits.firstLiteral_eq_none]
  apply (ensures_extend (η := η) R as ht.fits has.fits).imp
  intro u s' _ hu
  exact hu.trans (ht.converts.apps has.converts)

/-! ### Replacing a variable -/

/-- Closing a body over a variable means abstracting it. -/
def Recloses (η : Prop) (reclose : Variable → Term → Engine Term) : Prop :=
  ∀ (Γ : Scope) (s : Store) (w : Variable) (b : Term), Γ.Minted s → b.Fits (Γ.see w) s →
    Ensures (reclose w b) s fun u s' => Means η Γ s' u (b.reading.abs w)

/-- What a value may look like that is put in a place of a scope. -/
structure Insertable (Γ : Scope) (s : Store) (value : Term) : Prop where
  scope : Γ.Minted s
  fits : value.Fits Γ s
  taken : ∀ w, value.occurs w = true → w ∈ Γ.taken

namespace Insertable

variable {value : Term}

theorem later {s' : Store} (h : Insertable Γ s value) (hs : s ≤ s') : Insertable Γ s' value :=
  ⟨h.scope.later hs, h.fits.later hs, h.taken⟩

/-- What may be put in a place may be put below a lambda, as long as it does not matter that the
value binds the variable of the lambda once more. -/
theorem see (h : Insertable Γ s value) {w : Variable} (hw : s.Minted w) :
    Insertable (Γ.see w) s value :=
  ⟨h.scope.see hw, h.fits.mono (Γ.below_see w), h.taken⟩

/-- A value does not mention the variable of a lambda that it is put below. -/
theorem not_mentions (h : Insertable Γ s value) {w : Variable} (hw : w ∉ Γ.taken) :
    ¬ value.reading.Mentions w := fun hm => hw (h.taken w (occurs_of_mentions hm))

end Insertable

private theorem isNull_eq_false {t : Term} (ht : t.Fits Γ s) : t.isNull = false := by
  simp [isNull, ht.literal?_eq_none]

private theorem var_replaced {v w : Variable} {value : Term} (hv : Insertable Γ s value)
    (hw : (var w).Fits (Γ.see v) s) :
    Means η Γ s ((if w = v && !value.isNull then some value else none).getD (var w))
      ((var w).reading.replace v value.reading) := by
  rw [isNull_eq_false hv.fits]
  by_cases h : w = v
  · have replaced : (var w).reading.replace v value.reading = value.reading := if_pos h
    rw [replaced]
    simp only [h, decide_true, Bool.not_false, Bool.and_self, if_true, Option.getD_some]
    exact .self hv.fits
  · have kept : (var w).reading.replace v value.reading = (var w).reading := if_neg h
    rw [kept]
    simp only [h, decide_false, Bool.false_and, Bool.false_eq_true, if_false, Option.getD_none]
    exact .self (hw.resolve_left h)

/-- The scope in which the body of a lambda is looked through for a variable. -/
theorem below_body (Γ : Scope) (v w : Variable) :
    ((Γ.see v).bind w).Below ((Γ.see w).see v) :=
  (Γ.see_bind_below v w).trans
    ⟨fun _ hx => hx, fun _ hx => Set.mem_insert_of_mem w hx, id⟩

private theorem lam_kept {v : Variable} {b : Term} (h : (lam v b).Fits (Γ.see v) s)
    (u : LambdaTerm) : Means η Γ s (lam v b) ((lam v b).reading.replace v u) := by
  refine ⟨⟨h.1, h.2.1, h.2.2.mono ⟨?_, fun _ hw => hw, id⟩⟩, .of_eq ?_⟩
  · rintro w (rfl | rfl | hw)
    · exact Set.mem_insert w _
    · exact Set.mem_insert w _
    · exact Set.mem_insert_of_mem v hw
  · exact (LambdaTerm.replace_abs_self _ _ _).symm

mutual

/-- Replacing a variable means replacing it. -/
theorem ensures_replace (R : Rules) {reclose : Variable → Term → Engine Term}
    (hre : Recloses η reclose) {v : Variable} {value : Term} : ∀ (t : Term) {Γ : Scope} {s : Store},
    Insertable Γ s value → t.Fits (Γ.see v) s →
      Ensures (replace R reclose t v value) s fun o s' =>
        Means η Γ s' (o.getD t) (t.reading.replace v value.reading)
  | var w, Γ, s, hv, ht => by
    unfold replace
    exact .pure (var_replaced hv ht)
  | native c, Γ, s, hv, ht => by
    unfold replace
    refine .pure ⟨ht, .of_eq ?_⟩
    exact (LambdaTerm.replace_eq_self (c.not_mentions_reading v) _).symm
  | foreign x, Γ, s, hv, ht => ht.elim
  | named info d, Γ, s, hv, ht => by
    unfold replace
    apply (ensures_replace R hre d hv ht.2).imp
    intro o s' hs ho
    cases o with
    | some u => exact ho
    | none => exact ⟨⟨ht.1, ho.fits⟩, ho.converts⟩
  | lam w b, Γ, s, hv, ht => by
    unfold replace
    split
    · next hwv =>
      subst hwv
      exact .pure (lam_kept ht _)
    · next hwv =>
      obtain ⟨hw, hm, hb⟩ := ht
      apply (ensures_replace R hre b (hv.see hm) (hb.mono (below_body Γ v w))).bind
      intro o s₁ hs ho
      have passed : ((lam w b).reading.replace v value.reading) =
          (b.reading.replace v value.reading).abs w :=
        LambdaTerm.replace_abs hwv (hv.not_mentions hw) _
      cases o with
      | some b' =>
        apply (hre Γ s₁ w b' (hv.scope.later hs) ho.fits).bind
        intro u s₂ _ hu
        refine .pure (hu.trans ?_)
        rw [passed]
        exact ho.converts.abs w
      | none =>
        refine .pure ⟨⟨hw, hm.mono hs, ?_⟩, ?_⟩
        · exact (hb.later hs).restrict fun x hx => ho.fits.visible hx
        · rw [passed]
          exact ho.converts.abs w
  | app n h as, Γ, s, hv, ht => by
    unfold replace
    apply (ensures_replace R hre h hv ht.2.1).bind
    intro h' s₁ hs₁ hh
    apply (ensures_replaceAll R hre as (hv.later hs₁) (ht.2.2.later hs₁)).bind
    intro as' s₂ hs₂ ⟨hfst, has⟩
    have passed : (app n h as).reading.replace v value.reading =
        (h.reading.replace v value.reading).apps
          ((readings as).map fun a => a.replace v value.reading) :=
      LambdaTerm.replace_apps _ _ _ _
    rw [passed]
    split
    · next hnone =>
      rw [Bool.and_eq_true, Option.isNone_iff_eq_none] at hnone
      obtain ⟨rfl, hall⟩ := hnone
      rw [map_getD_of_isNone hall, hfst] at has
      exact .pure ⟨⟨ht.1, hh.fits.later hs₂, has.fits⟩, hh.converts.apps has.converts⟩
    · apply (ensures_apply R (hh.later hs₂) has).bind
      intro u s₃ _ hu
      exact .pure hu

/-- Replacing a variable in every term of a list means replacing it. -/
theorem ensures_replaceAll (R : Rules) {reclose : Variable → Term → Engine Term}
    (hre : Recloses η reclose) {v : Variable} {value : Term} : ∀ (ts : List Term) {Γ : Scope}
    {s : Store}, Insertable Γ s value → FitsAll (Γ.see v) s ts →
      Ensures (replaceAll R reclose ts v value) s fun ps s' => ps.map Prod.fst = ts ∧
        MeansAll η Γ s' (ps.map fun p => p.2.getD p.1)
          ((readings ts).map fun T => T.replace v value.reading)
  | [], Γ, s, hv, _ => by
    unfold replaceAll
    exact .pure ⟨rfl, .nil⟩
  | t :: ts, Γ, s, hv, hts => by
    unfold replaceAll
    apply (ensures_replace R hre t hv hts.1).bind
    intro o s₁ hs₁ ho
    apply (ensures_replaceAll R hre ts (hv.later hs₁) (hts.2.later hs₁)).bind
    intro ps s₂ hs₂ ⟨hfst, hps⟩
    refine .pure ⟨?_, .cons (ho.later hs₂) hps⟩
    rw [List.map_cons, hfst]

end

/-! ### Closing a term over a variable -/

/-- A body closed over a new variable, with the lambdas in it closed by any means. -/
private theorem ensures_closed (R : Rules) {reclose : Variable → Term → Engine Term}
    (hre : Recloses η reclose) {v : Variable} {body : Term} (hΓ : Γ.Minted s)
    (hb : body.Fits (Γ.see v) s) :
    Ensures (do
      let w ← Engine.freshVariable v.name
      return (w, (← replace R reclose body v (var w)).getD body)) s fun p s' =>
        Means η Γ s' (lam p.1 p.2) (body.reading.abs v) := by
  apply (Engine.ensures_freshVariable v.name s).bind
  intro w s₁ hs₁ ⟨hfresh, hw⟩
  have value : Insertable (Γ.bind w) s₁ (var w) := by
    refine ⟨(hΓ.later hs₁).bind hw, Set.mem_insert w _, ?_⟩
    intro x hx
    rw [occurs, decide_eq_true_iff] at hx
    exact hx ▸ Set.mem_insert w _
  have fits : body.Fits ((Γ.bind w).see v) s₁ := by
    exact ((hb.bind_fresh hfresh).mono (Γ.see_bind_below v w)).later hs₁
  have renamed : (body.reading.replace v (.free w)).abs w = body.reading.abs v := by
    refine LambdaTerm.abs_replace_free fun hm => ?_
    rcases hb.visible (occurs_of_mentions hm) with rfl | hx
    · rfl
    · exact absurd (hΓ.visible w hx) hfresh
  apply (ensures_replace R hre body value fits).bind
  intro o s₂ hs₂ ho
  refine .pure ((ho.lam ?_ (hw.mono hs₂)).trans (.of_eq renamed))
  exact fun hx => hfresh (hΓ.taken w hx)

/-- Closing a body in which lambdas nest up to a depth abstracts what it means. -/
theorem ensures_closeWithin (R : Rules) (depth : Nat) (hΓ : Γ.Minted s) {v : Variable}
    {body : Term} (hb : body.Fits (Γ.see v) s) :
    Ensures (closeWithin R depth v body) s fun p s' =>
      Means η Γ s' (lam p.1 p.2) (body.reading.abs v) := by
  induction depth generalizing Γ s v body with
  | zero =>
    unfold closeWithin
    split
    · exact .throw
    · exact ensures_closed R (fun _ _ _ _ _ _ => .throw) hΓ hb
    · next h _ => cases h
  | succ depth ih =>
    unfold closeWithin
    split
    · exact .throw
    · next h _ => cases h
    · next h _ =>
      cases h
      refine ensures_closed R ?_ hΓ hb
      intro Δ s₁ w b hΔ hb
      apply (ih hΔ hb).bind
      intro p s₂ _ hp
      exact .pure hp

/-- Closing a body over a variable abstracts what it means. -/
theorem ensures_close (R : Rules) (hΓ : Γ.Minted s) {v : Variable} {body : Term} {T : LambdaTerm}
    (hb : Means η (Γ.see v) s body T) :
    Ensures (close R v body) s fun p s' => Means η Γ s' (lam p.1 p.2) (T.abs v) := by
  apply (ensures_closeWithin (η := η) R _ hΓ hb.fits).imp
  intro p s' _ hp
  exact hp.trans (hb.converts.abs v)

/-- Abstracting a term over a variable abstracts what it means. -/
theorem ensures_abstract (R : Rules) (hΓ : Γ.Minted s) {v : Variable} {body : Term}
    {T : LambdaTerm} (hb : Means η (Γ.see v) s body T) :
    Ensures (abstract R v body) s fun u s' => Means η Γ s' u (T.abs v) := by
  apply (ensures_close R hΓ hb).bind
  intro p s₁ _ hp
  exact .pure hp

/-- Abstraction closes bodies. -/
theorem recloses_abstract (R : Rules) : Recloses η (abstract R) :=
  fun _ _ _ _ hΓ hb => ensures_abstract R hΓ (.self hb)

/-- Abstracting a term over several variables abstracts what it means. -/
theorem ensures_abstractAll (R : Rules) (vs : List Variable) (hΓ : Γ.Minted s)
    (hvs : ∀ v ∈ vs, s.Minted v) {body : Term} {T : LambdaTerm}
    (hb : Means η (Γ.seeAll vs) s body T) :
    Ensures (abstractAll R vs body) s fun u s' => Means η Γ s' u (T.absAll vs) := by
  induction vs generalizing Γ with
  | nil =>
    unfold abstractAll
    exact .pure hb
  | cons v vs ih =>
    unfold abstractAll
    have hv := hvs v List.mem_cons_self
    apply (ih (hΓ.see hv) (fun w hw => hvs w (List.mem_cons_of_mem v hw)) hb).bind
    intro u s₁ hs₁ hu
    exact ensures_abstract R (hΓ.later hs₁) hu

/-- The body of a lambda with an argument in place of its variable means just that. -/
theorem ensures_instantiate (R : Rules) (hΓ : Γ.Sealed s) {v : Variable} {b a : Term}
    (hb : (lam v b).Fits Γ s) (ha : a.Fits Γ s) :
    Ensures (instantiate R v b a) s fun u s' =>
      Means η Γ s' u (b.reading.replace v a.reading) := by
  have value : Insertable Γ s a :=
    ⟨hΓ.minted, ha, fun w hw => hΓ.visible w (ha.visible hw)⟩
  have fits : b.Fits (Γ.see v) s := hb.2.2.mono ((Scope.Below.refl Γ).bind_see v)
  apply (ensures_replace R (recloses_abstract (η := η) R) b value fits).bind
  intro o s₁ _ ho
  exact .pure ho

/-! ### Opening names -/

mutual

/-- A term with every name opened means the term. -/
theorem ensures_expand (R : Rules) : ∀ (t : Term) {Γ : Scope} {s : Store}, Γ.Minted s →
    t.Fits Γ s → Ensures (expand R t) s fun u s' => Means η Γ s' u t.reading
  | named info d, Γ, s, hΓ, ht => by
    unfold expand
    exact ensures_expand R d hΓ ht.2
  | lam v b, Γ, s, hΓ, ht => by
    unfold expand
    apply (ensures_expand R b (hΓ.bind ht.2.1) ht.2.2).bind
    intro b' s₁ hs₁ hb
    exact ensures_abstract R (hΓ.later hs₁) (hb.mono ((Scope.Below.refl Γ).bind_see v))
  | app n h as, Γ, s, hΓ, ht => by
    unfold expand
    apply (ensures_expand R h hΓ ht.2.1).bind
    intro h' s₁ hs₁ hh
    apply (ensures_expandAll R as (hΓ.later hs₁) (ht.2.2.later hs₁)).bind
    intro as' s₂ hs₂ has
    exact ensures_apply R (hh.later hs₂) has
  | var v, Γ, s, _, ht => by
    unfold expand
    exact .pure (.self ht)
  | native c, Γ, s, _, ht => by
    unfold expand
    exact .pure (.self ht)
  | foreign _, _, _, _, ht => ht.elim

/-- Terms with every name opened mean the terms. -/
theorem ensures_expandAll (R : Rules) : ∀ (ts : List Term) {Γ : Scope} {s : Store}, Γ.Minted s →
    FitsAll Γ s ts → Ensures (expand.expandAll R ts) s fun us s' => MeansAll η Γ s' us (readings ts)
  | [], Γ, s, _, _ => by
    unfold expand.expandAll
    exact .pure .nil
  | t :: ts, Γ, s, hΓ, hts => by
    unfold expand.expandAll
    apply (ensures_expand R t hΓ hts.1).bind
    intro u s₁ hs₁ hu
    apply (ensures_expandAll R ts (hΓ.later hs₁) (hts.2.later hs₁)).bind
    intro us s₂ hs₂ hus
    exact .pure (.cons (hu.later hs₂) hus)

end

end Term

end Combinatory
