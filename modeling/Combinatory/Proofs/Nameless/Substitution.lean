import Combinatory.Proofs.Nameless
import Combinatory.Proofs.Renaming
import Combinatory.Proofs.Scope

/-!
# Skeletons of what is built

A term without names has the shape of a skeleton if that is its skeleton. Applying terms, putting
one in place of a variable, and closing one over several computes the shape of the result. In a
lambda the variable is looked for below a binder that the value does not mention, so the value's
skeleton there is the lifted one (`computes_replace`).
-/

namespace Combinatory

open Engine (Computes Gives)

namespace Term

/-- A term without names has a skeleton, as seen from some places. -/
structure Shaped (e : Places) (x : Skeleton) (t : Term) (s : Store) : Prop where
  plain : t.Regular False ∅ s
  skeleton : t.skeleton e = x

/-- Terms without names have some skeletons, place by place. -/
abbrev ShapedAll (e : Places) (xs : List Skeleton) (ts : List Term) (s : Store) : Prop :=
  List.Forall₂ (Shaped e · · s) xs ts

variable {R : Rules} {V : Set Variable} {s s' : Store} {e : Places} {x : Skeleton}
  {xs : List Skeleton} {t u : Term} {ts : List Term} {v w : Variable}

theorem Shaped.later (h : Shaped e x t s) (hs : s ≤ s') : Shaped e x t s' :=
  ⟨h.plain.later hs, h.skeleton⟩

/-- A term without names has its own skeleton. -/
theorem Regular.shaped (ht : t.Regular False V s) (e : Places) : Shaped e (t.skeleton e) t s :=
  ⟨ht.unbound, rfl⟩

namespace ShapedAll

theorem later (h : ShapedAll e xs ts s) (hs : s ≤ s') : ShapedAll e xs ts s' :=
  h.imp fun _ _ h => h.later hs

theorem regular (h : ShapedAll e xs ts s) : RegularAll False ∅ s ts := by
  induction h with
  | nil => trivial
  | cons h _ ih => exact ⟨h.plain, ih⟩

theorem skeletons (h : ShapedAll e xs ts s) : Term.skeletons e ts = xs := by
  induction h with
  | nil => rfl
  | cons h _ ih => rw [Term.skeletons, h.skeleton, ih]

end ShapedAll

/-- Terms without names have their own skeletons. -/
theorem RegularAll.shaped (hts : RegularAll False V s ts) (e : Places) :
    ShapedAll e (skeletons e ts) ts s := by
  induction ts with
  | nil => exact .nil
  | cons t ts ih => exact .cons (hts.1.shaped e) (ih hts.2)

/-! ### Applications that stand -/

/-- Where a term without names cannot stand as the head of another, its skeleton cannot either. -/
private theorem StandsAs.bears {e : Places} {h : Term} {as : List Term} (hst : StandsAs h as)
    (hh : h.pending = 0) (has : pendingAll as = 0) :
    (h.skeleton e).bears (skeletons e as) = true := by
  rw [Skeleton.bears_iff]
  constructor
  · intro x ys hx
    cases h with
    | app n g bs => exact hst.flat n g bs rfl
    | named info d => cases hh
    | _ => cases hx
  · intro hsucc n hn
    have head : h = native .successor := by
      cases h with
      | native c =>
        injection hsucc with hc
        rw [hc]
      | named info d => cases hh
      | _ => cases hsucc
    obtain ⟨a, as, rfl⟩ := List.exists_cons_of_ne_nil hst.nonempty
    rw [pendingAll, Nat.add_eq_zero_iff] at has
    injection hn with hn
    cases a with
    | native c =>
      injection hn with hc
      exact hst.unmet head n (by rw [hc]; rfl)
    | named info d => cases has.1
    | _ => cases hn

mutual

/-- Every application in a regular term without names can stand as it is, as the skeleton has it. -/
theorem Regular.stands : ∀ {t : Term} {V : Set Variable} {e : Places}, t.Regular U V s →
    t.pending = 0 → (t.skeleton e).stands = true
  | var _, _, _, _, _ => rfl
  | native _, _, _, _, _ => rfl
  | foreign _, _, _, ht, _ => ht.elim
  | named _ _, _, _, _, hp => nomatch hp
  | lam _ b, _, _, ht, hp => Regular.stands (t := b) ht.2 hp
  | app _ h as, _, _, ⟨hst, hh, has⟩, hp => by
    rw [pending, Nat.add_eq_zero_iff] at hp
    rw [skeleton, Skeleton.stands, hst.bears hp.1 hp.2, Regular.stands hh hp.1,
      RegularAll.stands has hp.2]
    rfl

theorem RegularAll.stands : ∀ {ts : List Term} {V : Set Variable} {e : Places},
    RegularAll U V s ts → pendingAll ts = 0 → Skeleton.standsAll (skeletons e ts) = true
  | [], _, _, _, _ => rfl
  | _ :: _, _, _, hts, hp => by
    rw [pendingAll, Nat.add_eq_zero_iff] at hp
    rw [skeletons, Skeleton.standsAll, Regular.stands hts.1 hp.1, RegularAll.stands hts.2 hp.2]
    rfl

end

/-! ### Application -/

/-- An application that can stand as it is has an application of the skeletons that can, too. -/
theorem apply_skeletons_of_stands {h : Term} {as : List Term} (hst : StandsAs h as)
    (hh : h.Regular False V s) (has : RegularAll False V s as) (e : Places) :
    (h.skeleton e).apply (skeletons e as) = pure (.app (h.skeleton e) (skeletons e as)) := by
  obtain ⟨a, as, rfl⟩ := List.exists_cons_of_ne_nil hst.nonempty
  refine Skeleton.apply_of_unmet (hh.skeleton_ne_app hst.flat) fun hsucc n hn => ?_
  rw [has.1.skeleton_eq_native hn] at hst
  exact hst.unmet (hh.skeleton_eq_native hsucc) n rfl

private theorem computes_node {h : Term} {as : List Term} (hst : StandsAs h as)
    (hh : h.Regular False ∅ s) (has : RegularAll False ∅ s as) :
    Computes (Engine.node h as) s (pure (Skeleton.app (h.skeleton e) (skeletons e as)))
      (Shaped e) := by
  refine .of_gives ?_
  apply ((Engine.gives_node h as s).ensured (ensures_regular_node hst hh has)).imp
  rintro _ s' - ⟨⟨n, rfl⟩, hu⟩
  exact ⟨hu, by rw [Term.skeleton]⟩

private theorem computes_extend : ∀ (as : List Term) {t : Term}, t.Regular False ∅ s →
    RegularAll False ∅ s as →
      Computes (extend R t as) s ((t.skeleton e).apply (skeletons e as)) (Shaped e)
  | [], t, ht, _ => by
    unfold extend
    rw [skeletons, Skeleton.apply]
    exact .pure ⟨ht, rfl⟩
  | a :: as, t, ht, has => by
    by_cases hst : StandsAs t (a :: as)
    · rw [extend_of_stands hst ht, apply_skeletons_of_stands hst ht has]
      exact computes_node hst ht has
    · cases t with
      | app n h bs =>
        obtain ⟨hst, hh, hbs⟩ := ht
        have merged : StandsAs h (bs ++ a :: as) := by
          refine ⟨by simp, hst.flat, fun hsucc n hn => ?_⟩
          obtain ⟨b, bs, rfl⟩ := List.exists_cons_of_ne_nil hst.nonempty
          exact hst.unmet hsucc n hn
        rw [extend_app, Term.skeleton, skeletons, Skeleton.apply, ← skeletons, ← skeletons_append]
        exact computes_node merged hh (regularAll_append.mpr ⟨hbs, has⟩)
      | native c =>
        have met : c = .successor ∧ ∃ n, a = numeral n := by
          by_contra unmet
          refine hst ⟨List.cons_ne_nil a as, ?_, fun hsucc n hn => unmet ⟨?_, n, ?_⟩⟩
          · rintro _ _ _ ⟨⟩
          · injection hsucc
          · injection hn
        obtain ⟨rfl, n, rfl⟩ := met
        rw [Term.skeleton, skeletons, Term.skeleton, Skeleton.apply]
        split
        · next hn =>
          rw [extend_successor_numeral R hn]
          exact computes_extend as (regular_numeral (n + 1)) has.2
        · next hn =>
          have refused :
              extend R (native .successor) (numeral n :: as) = throw .numeralTooLong := by
            simp only [extend, Native.replacement, hn, if_false]
            rfl
          rw [refused]
          exact .throw
      | _ =>
        refine absurd ⟨List.cons_ne_nil a as, ?_, ?_⟩ hst
        · rintro _ _ _ ⟨⟩
        · rintro ⟨⟩

/-- Applying computes the application of the skeletons. -/
theorem computes_apply (ht : Shaped e x t s) (hts : ShapedAll e xs ts s) :
    Computes (apply R t ts) s (x.apply xs) (Shaped e) := by
  rw [apply_eq_extend R t hts.regular.firstLiteral_eq_none, ← ht.skeleton, ← hts.skeletons]
  exact computes_extend ts ht.plain hts.regular

/-! ### Putting a term in place of a variable -/

/-- What stands at the places of the variables of a term when a value is put in place of one. -/
def Puts (e₀ e : Places) (v : Variable) (value : Term) (σ : Place → Skeleton) (w : Variable) :
    Prop :=
  σ (e₀ w) = if w = v then value.skeleton e else .var (e w)

/-- Below a lambda the value has the lifted skeleton, if it does not mention the variable of the
lambda. -/
theorem Puts.bind {e₀ e : Places} {value : Term} {σ : Place → Skeleton} {y : Variable}
    (h : w ≠ y → Puts e₀ e v value σ w) (hy : y ≠ v) (hvalue : value.occurs y = false) :
    Puts (e₀.bind y) (e.bind y) v value (Skeleton.under σ) w := by
  unfold Puts
  by_cases hw : w = y
  · subst hw
    rw [Places.bind_self, Places.bind_self, Skeleton.under_bound_zero, if_neg hy]
  · rw [Places.bind_of_ne hw, Places.bind_of_ne hw, Skeleton.under_lift, h hw, skeleton_bind hvalue]
    split <;> rfl

mutual

/-- Putting a value in place of a variable that no lambda binds computes what is put at the place of
the variable. -/
theorem computes_replace {v : Variable} {value : Term} : ∀ (t : Term) {Γ : Scope} {s : Store}
    {e₀ e : Places} {σ : Place → Skeleton}, v ∈ Γ.taken →
      (∀ w, value.occurs w = true → w ∈ Γ.taken) → value.Regular False ∅ s → t.Regular False ∅ s →
      t.Fits Γ s → (∀ w, t.occurs w = true → Puts e₀ e v value σ w) →
      Computes (replace R (abstract R) t v value) s ((t.skeleton e₀).put σ)
        fun x o s' => Shaped e x (o.getD t) s'
  | var w, Γ, s, e₀, e, σ, _, _, hvalue, ht, _, hσ => by
    have here := hσ w (by simp [occurs])
    rw [Puts] at here
    unfold replace
    rw [Term.skeleton, Skeleton.put, here]
    refine .pure ?_
    by_cases hw : w = v
    · simpa [hw, isNull, hvalue.literal?_eq_none] using hvalue.shaped e
    · simp only [hw, if_false, decide_false, Bool.false_and, Bool.false_eq_true, Option.getD_none]
      exact ht.shaped e
  | native c, Γ, s, e₀, e, σ, _, _, _, ht, _, _ => by
    unfold replace
    exact .pure (ht.shaped e)
  | foreign x, _, _, _, _, _, _, _, _, ht, _, _ => ht.elim
  | named info d, _, _, _, _, _, _, _, _, ht, _, _ => ht.1.elim
  | lam y b, Γ, s, e₀, e, σ, hv, hΓ, hvalue, ht, hfits, hσ => by
    obtain ⟨hy, hm, hb⟩ := hfits
    have other : y ≠ v := by
      rintro rfl
      exact hy hv
    have absent : value.occurs y = false := by
      rw [← Bool.not_eq_true]
      exact fun h => hy (hΓ y h)
    unfold replace
    rw [if_neg other, Term.skeleton, Skeleton.put]
    apply (computes_replace b (Set.mem_insert_of_mem y hv)
      (fun w hw => Set.mem_insert_of_mem y (hΓ w hw)) hvalue ht.2.unbound hb
      fun w hw => .bind (fun hne => hσ w (by simp [occurs, hw, Ne.symm hne])) other absent).bind
    intro x o s₁ hs ho
    cases o with
    | none =>
      refine .pure ⟨⟨ht.1.mono hs, ho.plain.unbound⟩, ?_⟩
      rw [Option.getD_none, Term.skeleton]
      exact congrArg Skeleton.lam ho.skeleton
    | some b' =>
      apply Computes.after (gives_abstract (ho.plain.unbound (W := insert y ∅)))
      intro u s₂ hs₂ hu
      refine .pure ⟨hu.regular, ?_⟩
      rw [Option.getD_some, hu.skeleton]
      exact congrArg Skeleton.lam ho.skeleton
  | app n h as, Γ, s, e₀, e, σ, hv, hΓ, hvalue, ht, hfits, hσ => by
    unfold replace
    rw [Term.skeleton, Skeleton.put]
    apply (computes_replace h hv hΓ hvalue ht.2.1 hfits.2.1
      fun w hw => hσ w (by simp [occurs, hw])).bind
    intro x h' s₁ hs₁ hh
    apply (computes_replaceAll as hv hΓ (hvalue.later hs₁) (ht.2.2.later hs₁)
      (hfits.2.2.later hs₁) fun w hw => hσ w (by simp [occurs, hw])).bind
    rintro xs ps s₂ hs₂ ⟨hfst, hps⟩
    split
    · next hnone =>
      -- nothing is replaced, and what stands would be put together again as it is
      rw [Bool.and_eq_true, Option.isNone_iff_eq_none] at hnone
      rw [hnone.1, Option.getD_none] at hh
      rw [map_getD_of_isNone hnone.2, hfst] at hps
      have head := hh.later hs₂
      rw [← hh.skeleton, ← hps.skeletons, apply_skeletons_of_stands ht.1 head.plain hps.regular]
      exact .pure ⟨⟨ht.1, head.plain, hps.regular⟩, by rw [Option.getD_none, Term.skeleton]⟩
    · exact (computes_apply (hh.later hs₂) hps).map (f := some)

theorem computes_replaceAll {v : Variable} {value : Term} : ∀ (ts : List Term) {Γ : Scope}
    {s : Store} {e₀ e : Places} {σ : Place → Skeleton}, v ∈ Γ.taken →
      (∀ w, value.occurs w = true → w ∈ Γ.taken) → value.Regular False ∅ s →
      RegularAll False ∅ s ts → FitsAll Γ s ts →
      (∀ w, occursAny w ts = true → Puts e₀ e v value σ w) →
      Computes (replaceAll R (abstract R) ts v value) s (Skeleton.putAll σ (skeletons e₀ ts))
        fun xs ps s' => ps.map Prod.fst = ts ∧ ShapedAll e xs (ps.map fun p => p.2.getD p.1) s'
  | [], _, _, _, _, _, _, _, _, _, _, _ => by
    unfold replaceAll
    exact .pure ⟨rfl, .nil⟩
  | t :: ts, Γ, s, e₀, e, σ, hv, hΓ, hvalue, hts, hfits, hσ => by
    unfold replaceAll
    rw [skeletons, Skeleton.putAll]
    apply (computes_replace t hv hΓ hvalue hts.1 hfits.1
      fun w hw => hσ w (by simp [occursAny, hw])).bind
    intro x o s₁ hs₁ ho
    apply (computes_replaceAll ts hv hΓ (hvalue.later hs₁) (hts.2.later hs₁)
      (hfits.2.later hs₁) fun w hw => hσ w (by simp [occursAny, hw])).bind
    rintro xs ps s₂ hs₂ ⟨hfst, hps⟩
    refine .pure ⟨?_, .cons (ho.later hs₂) hps⟩
    rw [List.map_cons, hfst]

end

/-- Passing an argument to a lambda computes what its body is with the argument's skeleton. -/
theorem computes_instantiate {Γ : Scope} {b a : Term} (hΓ : Γ.Sealed s)
    (ht : (lam v b).Regular False ∅ s) (ha : a.Regular False ∅ s) (hfits : (lam v b).Fits Γ s)
    (hafits : a.Fits Γ s) :
    Computes (instantiate R v b a) s ((b.skeleton (e.bind v)).put (Skeleton.passing (a.skeleton e)))
      (Shaped e) := by
  have below (w : Variable) (hw : a.occurs w = true) : w ∈ (Γ.bind v).taken :=
    Set.mem_insert_of_mem v (hΓ.visible w (hafits.visible hw))
  have passed (w : Variable) : Puts (e.bind v) e v a (Skeleton.passing (a.skeleton e)) w := by
    unfold Puts
    by_cases hw : w = v
    · rw [hw, Places.bind_self, if_pos rfl, Skeleton.passing]
    · rw [Places.bind_of_ne hw, if_neg hw]
      cases e w <;> rfl
  exact (computes_replace b (Set.mem_insert v Γ.taken) below ha ht.2.unbound hfits.2.2
    fun w _ => passed w).map

/-- A regular term closed over some variables, which no name in it mentions, has its skeleton and
its profile below as many lambdas. -/
theorem gives_abstractAll {U : Prop} (vs : List Variable) {V : Set Variable} {b : Term}
    (hb : b.Regular U (V ∪ { v | v ∈ vs }) s) :
    Gives (abstractAll R vs b) s fun u s' => u.Regular U V s' ∧
      (∀ e : Places, u.skeleton e = .close vs.length (b.skeleton (e.bindAll vs))) ∧
      ∀ e : Places, u.profile e = .close vs.length (b.profile (e.bindAll vs)) := by
  induction vs generalizing V with
  | nil =>
    unfold abstractAll
    exact .pure ⟨hb.anti Set.subset_union_left, fun _ => rfl, fun _ => rfl⟩
  | cons v vs ih =>
    unfold abstractAll
    have below : insert v V ∪ { w | w ∈ vs } ⊆ V ∪ { w | w ∈ v :: vs } := by
      rintro w ((rfl | hw) | hw)
      · exact .inr List.mem_cons_self
      · exact .inl hw
      · exact .inr (List.mem_cons_of_mem v hw)
    apply (ih (hb.anti below)).bind
    rintro u s₁ - ⟨hu, hskeleton, hprofile⟩
    apply (gives_abstract hu).imp
    intro t s₂ _ ht
    refine ⟨ht.regular, fun e => ?_, fun e => ?_⟩
    · rw [ht.skeleton, hskeleton]
      rfl
    · rw [ht.profile, hprofile]
      rfl

end Term

end Combinatory
