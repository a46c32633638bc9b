import Combinatory.Proofs.Combination.Terms
import Combinatory.Proofs.Meaning.Substitution
import Mathlib.Logic.Function.Basic

/-!
# Towers

A tower is a number of lambdas over a combination. What it gives on arguments is read off under an
assignment to its free variables, so that the names of its binders do not matter. Replacing a
variable changes the assignment (`yields_replace_tower`), closing a tower over a variable adds an
argument (`yields_abstract`), and instantiating takes one (`yields_instantiate`); all of them have
a result, which is a tower again.
-/

namespace Combinatory

open Engine (Ensures Yields)
open Function (update)

/-- What a computation yields meets what is guaranteed of its results. -/
theorem Engine.Yields.ensured {α : Type} {x : Engine α} {s : Store} {P Q : α → Store → Prop}
    (hx : Yields x s P) (hq : Ensures x s Q) : Yields x s fun a s' => P a s' ∧ Q a s' := by
  intro hs
  obtain ⟨a, s', hr, hs', hle, hp⟩ := hx hs
  exact ⟨a, s', hr, hs', hle, hp, (hq a s' hr).2⟩

namespace Term

/-! ### Variables of combinations -/

mutual

/-- What occurs in a term that is a combination is mentioned there. -/
theorem occurs_iff_mentions {v : Variable} : ∀ {t : Term}, t.IsCombination →
    (t.occurs v = true ↔ t.combination.Mentions v)
  | var w, _ => by simp [occurs, combination, Combination.Mentions, eq_comm]
  | native c, _ => by simp [occurs, combination, Combination.Mentions]
  | app n h as, ⟨hh, _, has⟩ => by
    rw [occurs, Bool.or_eq_true, combination, Combination.mentions_apps,
      occurs_iff_mentions hh.isCombination, occursAny_iff_mentions has]
  | foreign _, ht => ht.elim
  | named _ _, ht => ht.elim
  | lam _ _, ht => ht.elim

theorem occursAny_iff_mentions {v : Variable} : ∀ {ts : List Term}, AreCombinations ts →
    (occursAny v ts = true ↔ ∃ c ∈ combinations ts, c.Mentions v)
  | [], _ => by simp [occursAny, combinations]
  | t :: ts, ⟨ht, hts⟩ => by
    simp [occursAny, combinations, occurs_iff_mentions ht, occursAny_iff_mentions hts]

end

/-! ### Towers -/

/-- A number of lambdas over a combination. -/
def IsTower : Nat → Term → Prop
  | 0, t => t.IsCombination
  | n + 1, lam _ b => IsTower n b
  | _ + 1, _ => False

/-- What a tower gives on arguments, under an assignment to its free variables. -/
def applied (σ : Variable → Combination) : Term → List Combination → Combination
  | lam v b, x :: xs => applied (update σ v x) b xs
  | t, xs => (t.combination.subst σ).apps xs

/-- A combination is applied to its arguments. -/
theorem IsCombination.applied_eq {t : Term} (ht : t.IsCombination) (σ : Variable → Combination)
    (xs : List Combination) : t.applied σ xs = (t.combination.subst σ).apps xs := by
  cases t <;> first | rfl | exact ht.elim

/-- A tower of some lambdas is a lambda over a tower of one less. -/
theorem IsTower.exists_lam {n : Nat} {t : Term} (ht : t.IsTower (n + 1)) :
    ∃ v b, t = lam v b ∧ b.IsTower n := by
  cases t <;> first | exact ht.elim | exact ⟨_, _, rfl, ht⟩

/-- A tower is no literal. -/
theorem IsTower.literal?_eq_none {n : Nat} {t : Term} (ht : t.IsTower n) : t.literal? = none := by
  cases t with
  | foreign x => cases n <;> exact ht.elim
  | _ => rfl

/-- Only what is assigned to the free variables matters. -/
theorem IsTower.applied_congr {n : Nat} {t : Term} (ht : t.IsTower n)
    {σ τ : Variable → Combination} (h : ∀ v, t.occurs v = true → σ v = τ v)
    (xs : List Combination) : t.applied σ xs = t.applied τ xs := by
  induction n generalizing t σ τ xs with
  | zero =>
    rw [IsCombination.applied_eq ht, IsCombination.applied_eq ht]
    congr 1
    exact Combination.subst_congr fun v hv => h v ((occurs_iff_mentions ht).mpr hv)
  | succ n ih =>
    obtain ⟨v, b, rfl, hb⟩ := ht.exists_lam
    cases xs with
    | nil => rfl
    | cons x xs =>
      refine ih hb (fun w hw => ?_) xs
      by_cases hwv : w = v
      · rw [hwv, Function.update_self, Function.update_self]
      · rw [Function.update_of_ne hwv, Function.update_of_ne hwv]
        exact h w (by simp [occurs, hw, Ne.symm hwv])

/-- Lambdas nest in a tower as deep as it is high. -/
theorem IsTower.le_lambdaDepth {n : Nat} {t : Term} (ht : t.IsTower n) : n ≤ t.lambdaDepth := by
  induction n generalizing t with
  | zero => exact Nat.zero_le _
  | succ n ih =>
    obtain ⟨v, b, rfl, hb⟩ := ht.exists_lam
    exact Nat.succ_le_succ (ih hb)

/-! ### Replacing a variable -/

/-- A combination has a value that it puts in place of a variable. -/
private theorem isNull_eq_false_of_isCombination {t : Term} (ht : t.IsCombination) :
    t.isNull = false := by
  simp [isNull, ht.literal?_eq_none]

section Replace

variable {R : Rules} {reclose : Variable → Term → Engine Term} {v : Variable} {value : Term}

/-- What replacing makes of a combination. -/
abbrev Replaced (v : Variable) (value t : Term) (o : Option Term) : Prop :=
  (o.getD t).Forms (t.combination.subst (update .var v value.combination))

mutual

/-- Replacing a variable of a combination puts the value in its place. -/
theorem yields_replace (hvalue : value.IsCombination) : ∀ (t : Term), t.IsCombination →
    ∀ s : Store, Yields (replace R reclose t v value) s fun o _ => Replaced v value t o
  | var w, ht, s => by
    unfold replace
    rw [isNull_eq_false_of_isCombination hvalue]
    refine .pure ?_
    by_cases h : w = v
    · subst h
      have replaced : (var w).combination.subst (update .var w value.combination) =
          value.combination := Function.update_self ..
      simp only [Replaced, replaced, decide_true, Bool.not_false, Bool.and_self, if_true]
      exact .self hvalue
    · have kept : (var w).combination.subst (update .var v value.combination) = .var w :=
        Function.update_of_ne h ..
      simp only [Replaced, kept, h, decide_false, Bool.false_and]
      exact .self ht
  | native c, ht, s => by
    unfold replace
    exact .pure (.self ht)
  | app n h as, ⟨hh, hne, has⟩, s => by
    unfold replace
    apply (yields_replace hvalue h hh.isCombination s).bind
    intro h' s₁ _ hh'
    apply (yields_replaceAll hvalue as has s₁).bind
    rintro as' s₂ - ⟨hfst, has'⟩
    have passed : (app n h as).combination.subst (update .var v value.combination) =
        (h.combination.subst (update .var v value.combination)).apps
          ((combinations as).map (Combination.subst (update .var v value.combination))) :=
      Combination.subst_apps _ _ _
    split
    · next hnone =>
      rw [Bool.and_eq_true, Option.isNone_iff_eq_none] at hnone
      obtain ⟨rfl, hall⟩ := hnone
      rw [map_getD_of_isNone hall, hfst] at has'
      refine .pure ⟨⟨hh, hne, has⟩, ?_⟩
      rw [passed, ← hh'.combination, ← (combinations_of_forms has').2]
      rfl
    · apply (hh'.apply R has' s₂).bind
      intro u s₃ _ hu
      refine .pure ?_
      rw [Replaced, passed]
      exact hu
  | foreign _, ht, _ => ht.elim
  | named _ _, ht, _ => ht.elim
  | lam _ _, ht, _ => ht.elim

theorem yields_replaceAll (hvalue : value.IsCombination) : ∀ (ts : List Term),
    AreCombinations ts → ∀ s : Store, Yields (replaceAll R reclose ts v value) s fun ps _ =>
      ps.map Prod.fst = ts ∧ List.Forall₂ Forms (ps.map fun p => p.2.getD p.1)
        ((combinations ts).map (Combination.subst (update .var v value.combination)))
  | [], _, s => by
    unfold replaceAll
    exact .pure ⟨rfl, .nil⟩
  | t :: ts, ⟨ht, hts⟩, s => by
    unfold replaceAll
    apply (yields_replace hvalue t ht s).bind
    intro o s₁ _ ho
    apply (yields_replaceAll hvalue ts hts s₁).bind
    rintro ps s₂ - ⟨hfst, hps⟩
    exact .pure ⟨by rw [List.map_cons, hfst], .cons ho hps⟩

end

end Replace

/-- The abstraction of a body that is a tower takes an argument for the variable. -/
structure Closes (n : Nat) (v : Variable) (body : Term) (w : Variable) (b : Term) : Prop where
  tower : b.IsTower n
  applied : ∀ σ x xs, (lam w b).applied σ (x :: xs) = body.applied (update σ v x) xs

/-- Whether towers of some height are closed over variables. -/
def ClosesTowers (reclose : Variable → Term → Engine Term) (n : Nat) : Prop :=
  ∀ (Γ : Scope) (s : Store) (v : Variable) (b : Term), Γ.Minted s → b.Fits (Γ.see v) s →
    b.IsTower n → Yields (reclose v b) s fun u _ => ∃ w c, u = lam w c ∧ Closes n v b w c

variable {Γ : Scope} {s : Store} {R : Rules} {v : Variable} {value : Term}

/-- A tower with a value in place of a variable. -/
structure PutIn (n : Nat) (v : Variable) (value t u : Term) : Prop where
  tower : u.IsTower n
  applied : ∀ σ xs, u.applied σ xs = t.applied (update σ v (value.combination.subst σ)) xs

/-- An assignment reaches below a lambda whose binder the value does not mention. -/
private theorem applied_below {w : Variable} {b u : Term} (hvalue : ¬ value.combination.Mentions w)
    (hwv : w ≠ v) {n : Nat} (hu : PutIn n v value b u) (σ : Variable → Combination)
    (x : Combination) (xs : List Combination) :
    u.applied (update σ w x) xs =
      (lam w b).applied (update σ v (value.combination.subst σ)) (x :: xs) := by
  have same : value.combination.subst (update σ w x) = value.combination.subst σ := by
    refine Combination.subst_congr fun y hy => Function.update_of_ne ?_ _ _
    rintro rfl
    exact hvalue hy
  rw [hu.applied, same, applied, Function.update_comm (Ne.symm hwv)]

/-- Replacing a variable of a tower puts the value in its place. -/
theorem yields_replace_tower {reclose : Variable → Term → Engine Term} {n : Nat}
    (hmeans : Recloses True reclose) (hre : ∀ m < n, ClosesTowers reclose m)
    (hvalue : value.IsCombination) {t : Term} (ht : t.IsTower n) (hv : Insertable Γ s value)
    (hfits : t.Fits (Γ.see v) s) :
    Yields (replace R reclose t v value) s fun o _ => PutIn n v value t (o.getD t) := by
  induction n generalizing t Γ s with
  | zero =>
    apply (yields_replace hvalue t ht s).imp
    intro o s' _ ho
    refine ⟨ho.isCombination, fun σ xs => ?_⟩
    rw [ho.isCombination.applied_eq, IsCombination.applied_eq ht, ho.combination,
      Combination.subst_subst]
    congr 2
    funext w
    by_cases hw : w = v
    · rw [hw, Function.update_self, Function.update_self]
    · rw [Function.update_of_ne hw, Function.update_of_ne hw, Combination.subst]
  | succ n ih =>
    obtain ⟨w, b, rfl, hb⟩ := ht.exists_lam
    unfold replace
    split
    · next hwv =>
      subst hwv
      refine .pure ⟨ht, fun σ xs => ?_⟩
      cases xs with
      | nil => rfl
      | cons x xs => rw [Option.getD_none, applied, applied, Function.update_idem]
    · next hwv =>
      obtain ⟨hw, hm, hbody⟩ := hfits
      have free : ¬ value.combination.Mentions w := fun h =>
        hw (hv.taken w ((occurs_iff_mentions hvalue).mpr h))
      have fits := hbody.mono (below_body Γ v w)
      have inner := (ih (fun m hm => hre m (Nat.lt_succ_of_lt hm)) hb (hv.see hm) fits).ensured
        (ensures_replace R hmeans b (hv.see hm) fits)
      apply inner.bind
      rintro o s₁ hs ⟨ho, hmeant⟩
      cases o with
      | some b' =>
        apply (hre n (Nat.lt_succ_self n) Γ s₁ w b' (hv.scope.later hs) hmeant.fits ho.tower).bind
        rintro _ s₂ - ⟨u, c, rfl, hc⟩
        refine .pure ⟨hc.tower, fun σ xs => ?_⟩
        cases xs with
        | nil => rfl
        | cons x xs => exact (hc.applied σ x xs).trans (applied_below free hwv ho σ x xs)
      | none =>
        refine .pure ⟨ho.tower, fun σ xs => ?_⟩
        cases xs with
        | nil => rfl
        | cons x xs => exact applied_below free hwv ho σ x xs

/-! ### Closing a tower over a variable -/

/-- A body closed over a new variable, with the lambdas in it closed by any means. -/
private theorem yields_closed {reclose : Variable → Term → Engine Term} {n : Nat}
    (hmeans : Recloses True reclose) (hre : ∀ m < n, ClosesTowers reclose m) {body : Term}
    (hΓ : Γ.Minted s) (hfits : body.Fits (Γ.see v) s) (hbody : body.IsTower n) :
    Yields (do
      let w ← Engine.freshVariable v.name
      return (w, (← replace R reclose body v (var w)).getD body)) s fun q _ =>
        ¬ s.Minted q.1 ∧ Closes n v body q.1 q.2 := by
  apply ((Engine.yields_freshVariable v.name s).ensured
    (Engine.ensures_freshVariable v.name s)).bind
  rintro w s₁ hs₁ ⟨-, hfresh, hw⟩
  have value : Insertable (Γ.bind w) s₁ (var w) := by
    refine ⟨(hΓ.later hs₁).bind hw, Set.mem_insert w _, fun x hx => ?_⟩
    rw [occurs, decide_eq_true_iff] at hx
    exact hx ▸ Set.mem_insert w _
  have fits : body.Fits ((Γ.bind w).see v) s₁ :=
    ((hfits.bind_fresh hfresh).mono (Γ.see_bind_below v w)).later hs₁
  have hvar : (var w).IsCombination := trivial
  apply (yields_replace_tower hmeans hre hvar hbody value fits).bind
  intro o s₂ _ ho
  refine .pure ⟨hfresh, ho.tower, fun σ x xs => ?_⟩
  have argument : (var w).combination.subst (update σ w x) = x := Function.update_self ..
  rw [applied, ho.applied, argument]
  refine hbody.applied_congr (fun y hy => ?_) xs
  by_cases hyv : y = v
  · rw [hyv, Function.update_self, Function.update_self]
  · -- the new variable does not occur in the body
    have minted : s.Minted y := hΓ.visible y ((hfits.visible hy).resolve_left hyv)
    have hyw : y ≠ w := by
      rintro rfl
      exact hfresh minted
    rw [Function.update_of_ne hyv, Function.update_of_ne hyv, Function.update_of_ne hyw]

private theorem yields_closeWithin {n depth : Nat} (hn : n ≤ depth) {body : Term}
    (hΓ : Γ.Minted s) (hfits : body.Fits (Γ.see v) s) (hbody : body.IsTower n) :
    Yields (closeWithin R depth v body) s fun q _ =>
      ¬ s.Minted q.1 ∧ Closes n v body q.1 q.2 := by
  induction depth generalizing n Γ s v body with
  | zero =>
    cases Nat.le_zero.mp hn
    unfold closeWithin
    split
    · exact hbody.elim
    · refine yields_closed (fun _ _ _ _ _ _ => .throw) ?_ hΓ hfits hbody
      exact fun m hm => absurd hm (Nat.not_lt_zero m)
    · next h _ => cases h
  | succ depth ih =>
    unfold closeWithin
    split
    · cases hbody.literal?_eq_none
    · next h _ => cases h
    · next h _ =>
      cases h
      refine yields_closed ?_ ?_ hΓ hfits hbody
      · intro Δ s₁ w b hΔ hb
        apply (ensures_closeWithin (η := True) R depth hΔ hb).bind
        intro q s₂ _ hq
        exact .pure hq
      · intro m hm Δ s₁ w b hΔ hb ht
        apply (ih (by omega) hΔ hb ht).bind
        rintro q s₂ - ⟨-, hq⟩
        exact .pure ⟨_, _, rfl, hq⟩

/-- A tower is closed over a variable. -/
theorem yields_close {n : Nat} {body : Term} (hΓ : Γ.Minted s) (hfits : body.Fits (Γ.see v) s)
    (hbody : body.IsTower n) : Yields (close R v body) s fun q _ =>
      ¬ s.Minted q.1 ∧ Closes n v body q.1 q.2 :=
  yields_closeWithin (Nat.le_trans hbody.le_lambdaDepth (Nat.le_add_right _ _)) hΓ hfits hbody

/-- A combination is closed over a variable by renaming it. -/
theorem yields_close_combination {body : Term} {c : Combination} (hbody : body.Forms c)
    (hc : ∀ w, c.Mentions w → s.Minted w) : Yields (close R v body) s fun q s' =>
      ¬ s.Minted q.1 ∧ s'.Minted q.1 ∧ q.2.Forms (c.subst (update .var v (.var q.1))) := by
  have hΓ : (Scope.ofFree { w | s.Minted w }).Minted s := ⟨fun _ hw => hw, fun _ hw => hw⟩
  have fits : body.Fits ((Scope.ofFree { w | s.Minted w }).see v) s := by
    refine hbody.isCombination.fits fun w hw => .inr (hc w ?_)
    rwa [← hbody.combination, ← occurs_iff_mentions hbody.isCombination]
  apply ((yields_close hΓ fits (n := 0) hbody.isCombination).ensured
    (ensures_close (η := True) R hΓ (.self fits))).imp
  rintro q s' - ⟨⟨hfresh, hq⟩, hmeant⟩
  have hq₂ : q.2.IsCombination := hq.tower
  refine ⟨hfresh, hmeant.fits.2.1, hq₂, ?_⟩
  -- the binder itself is passed for the variable
  have renamed := hq.applied .var (.var q.1) []
  have kept : update Combination.var q.1 (.var q.1) = .var := Function.update_eq_self q.1 _
  rw [applied, kept, hq₂.applied_eq, hbody.isCombination.applied_eq, Combination.subst_var,
    hbody.combination] at renamed
  exact renamed

/-- The abstraction of a tower over a variable. -/
theorem yields_abstract {n : Nat} {body : Term} (hΓ : Γ.Minted s) (hfits : body.Fits (Γ.see v) s)
    (hbody : body.IsTower n) : Yields (abstract R v body) s fun u _ =>
      ∃ w c, u = lam w c ∧ Closes n v body w c := by
  apply (yields_close hΓ hfits hbody).bind
  rintro q s₁ - ⟨-, hq⟩
  exact .pure ⟨_, _, rfl, hq⟩

/-- What some variables are assigned when arguments are passed for them, one after another. -/
def passed (σ : Variable → Combination) : List Variable → List Combination → Variable → Combination
  | v :: vs, x :: xs => passed (update σ v x) vs xs
  | _, _ => σ

/-- Other variables are assigned what they were before. -/
theorem passed_of_not_mem {vs : List Variable} {v : Variable} (hv : v ∉ vs)
    (σ : Variable → Combination) (xs : List Combination) : passed σ vs xs v = σ v := by
  induction vs generalizing σ xs with
  | nil => rfl
  | cons w vs ih =>
    cases xs with
    | nil => rfl
    | cons x xs =>
      rw [passed, ih (fun h => hv (List.mem_cons_of_mem w h)), Function.update_of_ne]
      rintro rfl
      exact hv List.mem_cons_self

/-- Variables are renamed by passing variables for them. -/
theorem exists_passed_eq_var {σ : Variable → Combination} (hσ : ∀ v, ∃ w, σ v = .var w)
    (vs ws : List Variable) (v : Variable) : ∃ w, passed σ vs (ws.map .var) v = .var w := by
  induction vs generalizing σ ws with
  | nil => exact hσ v
  | cons x vs ih =>
    cases ws with
    | nil => exact hσ v
    | cons y ws =>
      refine ih (fun z => ?_) ws
      by_cases hz : z = x
      · exact ⟨y, by rw [hz, Function.update_self]⟩
      · rw [Function.update_of_ne hz]
        exact hσ z

/-- Distinct variables are assigned the arguments in order. -/
theorem map_passed {vs : List Variable} (hvs : vs.Nodup) (σ : Variable → Combination)
    {xs : List Combination} (hlen : vs.length ≤ xs.length) :
    vs.map (passed σ vs xs) = xs.take vs.length := by
  induction vs generalizing σ xs with
  | nil => rfl
  | cons v vs ih =>
    obtain ⟨hv, hvs⟩ := List.nodup_cons.mp hvs
    cases xs with
    | nil => cases hlen
    | cons x xs =>
      rw [List.map_cons, passed, passed_of_not_mem hv, Function.update_self,
        ih hvs _ (Nat.le_of_succ_le_succ hlen)]
      rfl

/-- The abstraction of a combination over variables takes an argument for each. -/
theorem yields_abstractAll (vs : List Variable) (hΓ : Γ.Minted s) (hvs : ∀ v ∈ vs, s.Minted v)
    {body : Term} (hfits : body.Fits (Γ.seeAll vs) s) (hbody : body.IsCombination) :
    Yields (abstractAll R vs body) s fun u _ => u.IsTower vs.length ∧
      ∀ σ xs, vs.length ≤ xs.length → u.applied σ xs =
        (body.combination.subst (passed σ vs xs)).apps (xs.drop vs.length) := by
  induction vs generalizing Γ s with
  | nil =>
    unfold abstractAll
    refine .pure ⟨hbody, fun σ xs _ => ?_⟩
    rw [hbody.applied_eq]
    rfl
  | cons v vs ih =>
    unfold abstractAll
    have hv := hvs v List.mem_cons_self
    have rest : ∀ w ∈ vs, s.Minted w := fun w hw => hvs w (List.mem_cons_of_mem v hw)
    have inner := (ih (hΓ.see hv) rest hfits).ensured
      (ensures_abstractAll (η := True) R vs (hΓ.see hv) rest (.self hfits))
    apply inner.bind
    rintro u s₁ hs₁ ⟨⟨hu, happlied⟩, hmeant⟩
    apply (yields_abstract (hΓ.later hs₁) hmeant.fits hu).imp
    rintro _ s₂ - ⟨w, c, rfl, hc⟩
    refine ⟨hc.tower, fun σ xs hlen => ?_⟩
    cases xs with
    | nil => cases hlen
    | cons x xs =>
      rw [hc.applied, happlied _ _ (Nat.le_of_succ_le_succ hlen)]
      rfl

/-! ### Passing arguments -/

/-- The body of a tower with an argument in place of the variable of its first lambda. -/
theorem yields_instantiate {n : Nat} {b a : Term} (hΓ : Γ.Sealed s) (hfits : (lam v b).Fits Γ s)
    (hb : b.IsTower n) (ha : a.IsCombination) (hafits : a.Fits Γ s) :
    Yields (instantiate R v b a) s fun u s' => u.IsTower n ∧ u.Fits Γ s' ∧
      ∀ σ xs, u.applied σ xs = (lam v b).applied σ (a.combination.subst σ :: xs) := by
  have value : Insertable Γ s a :=
    ⟨hΓ.minted, hafits, fun w hw => hΓ.visible w (hafits.visible hw)⟩
  have fits : b.Fits (Γ.see v) s := hfits.2.2.mono ((Scope.Below.refl Γ).bind_see v)
  have replaced : Yields (subst R b v a) s fun o _ => PutIn n v a b (o.getD b) := by
    refine yields_replace_tower (recloses_abstract R) ?_ ha hb value fits
    intro m _ Δ s₁ w c hΔ hc ht
    exact yields_abstract hΔ hc ht
  apply (replaced.ensured
    (ensures_replace R (recloses_abstract (η := True) R) b value fits)).bind
  rintro o s₁ - ⟨ho, hmeant⟩
  exact .pure ⟨ho.tower, hmeant.fits, ho.applied⟩

end Term

end Combinatory
