import Combinatory.Proofs.Exposure
import Combinatory.Proofs.Hygiene
import Combinatory.Proofs.Making
import Combinatory.Proofs.Renaming

/-!
# Replacing a variable

To replace a variable of a regular term by a value that mentions none of the term's binders is to
put the value's profile at the places of the variable, in what is exposed of the term
(`attains_replace`). Every lambda on the way is closed again over a new variable, but this does not
show in the profile. Nothing goes wrong on the way except that a numeral gets too long.
-/

namespace Combinatory

namespace Engine

variable {α β γ δ : Type}

/-- A computation of the engine has a result if `r` is one, whatever the store, and the two belong
together; if `r` is a failure, the computation fails for the same cause. It gives out identities and
remembers nothing. -/
def Attains (x : Engine α) (s : Store) (r : Except Failure β) (Q : β → α → Store → Prop) : Prop :=
  match r with
  | .ok b => Gives x s (Q b)
  | .error e => ∃ s', x s = .error e s'

namespace Attains

variable {x : Engine α} {s : Store} {r : Except Failure β} {Q : β → α → Store → Prop}

/-- Results may belong together less closely. -/
theorem imp {Q' : β → α → Store → Prop} (hx : Attains x s r Q)
    (h : ∀ b a s', s ≤ s' → Q b a s' → Q' b a s') : Attains x s r Q' := by
  cases r with
  | ok b => exact Gives.imp hx (h b)
  | error e => exact hx

/-- A constant attains a constant. -/
protected theorem pure {a : α} {b : β} (h : Q b a s) : Attains (Pure.pure a) s (Pure.pure b) Q :=
  Gives.pure h

/-- A failure attains the same failure. -/
protected theorem throw {e : Failure} :
    Attains (MonadExcept.throw e : Engine α) s (MonadExcept.throw e) Q :=
  ⟨s, rfl⟩

/-- Sequences attain sequences, part by part. -/
protected theorem bind {f : α → Engine γ} {g : β → Except Failure δ} {P : β → α → Store → Prop}
    {Q : δ → γ → Store → Prop} (hx : Attains x s r P)
    (hf : ∀ b a s₁, s ≤ s₁ → P b a s₁ → Attains (f a) s₁ (g b) Q) :
    Attains (x >>= f) s (r >>= g) Q := by
  cases r with
  | ok b =>
    change Attains (x >>= f) s (g b) Q
    cases hg : g b with
    | ok d =>
      refine Gives.bind hx fun a s₁ hs hp => ?_
      have rest := hf b a s₁ hs hp
      rwa [hg] at rest
    | error e =>
      obtain ⟨a, s₁, h₁, hs, -, -, hp⟩ := hx
      have rest := hf b a s₁ hs hp
      rw [hg] at rest
      obtain ⟨s₂, h₂⟩ := rest
      exact ⟨s₂, (bind_of_ok h₁).trans h₂⟩
  | error e =>
    obtain ⟨s₁, h₁⟩ := hx
    exact ⟨s₁, bind_of_error h₁⟩

/-- What is attained meets what is guaranteed. -/
theorem ensured {P : α → Store → Prop} (hx : Attains x s r Q) (hp : Ensures x s P) :
    Attains x s r fun b a s' => Q b a s' ∧ P a s' := by
  cases r with
  | ok b => exact Gives.ensured hx hp
  | error e => exact hx

/-- A result may be put into another form. -/
theorem map {f : α → γ} {Q : β → γ → Store → Prop}
    (hx : Attains x s r fun b a s' => Q b (f a) s') : Attains (do return f (← x)) s r Q := by
  cases r with
  | ok b => exact Gives.bind hx fun a s₁ _ hq => .pure hq
  | error e =>
    obtain ⟨s₁, h₁⟩ := hx
    exact ⟨s₁, bind_of_error h₁⟩

/-- What comes after a computation that always has a result attains what the whole does. -/
theorem after {x : Engine γ} {P : γ → Store → Prop} {f : γ → Engine α} (hx : Gives x s P)
    (hf : ∀ a s₁, s ≤ s₁ → P a s₁ → Attains (f a) s₁ r Q) : Attains (x >>= f) s r Q := by
  have first : Attains x s (Pure.pure ()) fun _ => P := hx
  exact first.bind (g := fun _ => r) fun _ => hf

end Attains

end Engine

open Engine (Attains Ensures Gives)

namespace Term

variable {R : Rules} {U : Prop} {V : Set Variable} {s s' : Store} {e : Places} {x : Skeleton}
  {xs : List Skeleton} {t u : Term} {ts us : List Term} {v w : Variable} {value : Term}

/-! ### Regular terms and other variables -/

mutual

/-- A term in which a variable does not occur is regular below a lambda of the variable. -/
theorem Regular.insert_absent : ∀ {t : Term} {V : Set Variable}, t.Regular U V s →
    t.occurs w = false → t.Regular U (insert w V) s
  | var _, _, ht, _ => ht
  | native _, _, ht, _ => ht
  | foreign _, _, ht, _ => ht
  | named _ d, _, ht, hw => by
    rw [occurs] at hw
    refine ⟨ht.1, ?_, Regular.insert_absent ht.2.2 hw⟩
    rintro v (rfl | hv)
    · exact hw
    · exact ht.2.1 v hv
  | lam y b, V, ht, hw => by
    refine ⟨ht.1, ?_⟩
    rw [Set.insert_comm]
    by_cases hy : y = w
    · subst hy
      exact ht.2.anti (by simp)
    · refine Regular.insert_absent ht.2 ?_
      simpa [occurs, hy] using hw
  | app _ _ _, _, ht, hw => by
    rw [occurs, Bool.or_eq_false_iff] at hw
    exact ⟨ht.1, Regular.insert_absent ht.2.1 hw.1, RegularAll.insert_absent ht.2.2 hw.2⟩

theorem RegularAll.insert_absent : ∀ {ts : List Term} {V : Set Variable}, RegularAll U V s ts →
    occursAny w ts = false → RegularAll U (insert w V) s ts
  | [], _, _, _ => trivial
  | _ :: _, _, hts, hw => by
    rw [occursAny, Bool.or_eq_false_iff] at hw
    exact ⟨Regular.insert_absent hts.1 hw.1, RegularAll.insert_absent hts.2 hw.2⟩

end

mutual

/-- What a regular term binds has been minted. -/
theorem Regular.minted_of_binds : ∀ {t : Term} {V : Set Variable}, t.Regular U V s →
    t.binds v = true → s.Minted v
  | var _, _, _, h => by
    rw [binds] at h
    cases h
  | native _, _, _, h => by
    rw [binds] at h
    cases h
  | foreign _, _, ht, _ => ht.elim
  | named _ _, _, ht, h => by
    rw [binds] at h
    exact Regular.minted_of_binds ht.2.2 h
  | lam y b, _, ht, h => by
    rw [binds, Bool.or_eq_true, decide_eq_true_iff] at h
    obtain rfl | h := h
    · exact ht.1
    · exact Regular.minted_of_binds ht.2 h
  | app _ _ _, _, ht, h => by
    rw [binds, Bool.or_eq_true] at h
    obtain h | h := h
    · exact Regular.minted_of_binds ht.2.1 h
    · exact RegularAll.minted_of_bindsAny ht.2.2 h

theorem RegularAll.minted_of_bindsAny : ∀ {ts : List Term} {V : Set Variable},
    RegularAll U V s ts → bindsAny v ts = true → s.Minted v
  | [], _, _, h => by
    rw [bindsAny] at h
    cases h
  | _ :: _, _, hts, h => by
    rw [bindsAny, Bool.or_eq_true] at h
    obtain h | h := h
    · exact Regular.minted_of_binds hts.1 h
    · exact RegularAll.minted_of_bindsAny hts.2 h

end

/-! ### Application -/

/-- What becomes of terms that are applied: a term of a profile, with their variables. -/
structure Applied (U : Prop) (V : Set Variable) (s : Store) (e : Places) (x : Skeleton) (h : Term)
    (as : List Term) (u : Term) : Prop where
  regular : u.Regular U V s
  profile : u.profile e = x
  depth : u.lambdaDepth ≤ max h.lambdaDepth (lambdaDepthOfAll as)
  occurs : ∀ w, u.occurs w = (h.occurs w || occursAny w as)

theorem occursAny_append (w : Variable) (ts us : List Term) :
    occursAny w (ts ++ us) = (occursAny w ts || occursAny w us) := by
  induction ts with
  | nil => rfl
  | cons t ts ih => rw [List.cons_append, occursAny, occursAny, ih, Bool.or_assoc]

/-- An application that can stand has the profile of one. -/
private theorem apply_profiles {h : Term} {as : List Term} (hst : StandsAs h as) (e : Places) :
    (h.profile e).apply (profiles e as) = pure (.app (h.profile e) (profiles e as)) := by
  obtain ⟨a, as, rfl⟩ := List.exists_cons_of_ne_nil hst.nonempty
  refine Skeleton.apply_of_unmet (profile_ne_app hst.flat) fun hsucc n hn => ?_
  have head : h = native .successor := by
    cases h with
    | native c =>
      injection hsucc with hc
      rw [hc]
    | _ => cases hsucc
  have first : a = numeral n := by
    cases a with
    | native c =>
      injection hn with hc
      rw [hc]
    | _ => cases hn
  exact hst.unmet head n (congrArg some first)

private theorem attains_node {h : Term} {as : List Term} (hst : StandsAs h as)
    (hh : h.Regular U V s) (has : RegularAll U V s as) :
    Attains (Engine.node h as) s (pure (Skeleton.app (h.profile e) (profiles e as)))
      fun x u s' => Applied U V s' e x h as u := by
  apply ((Engine.gives_node h as s).ensured (ensures_regular_node hst hh has)).imp
  rintro _ s' - ⟨⟨n, rfl⟩, hu⟩
  refine ⟨hu, rfl, ?_, fun w => ?_⟩
  · rw [lambdaDepth]
  · rw [occurs]

private theorem attains_extend : ∀ (as : List Term) {t : Term}, t.Regular U V s →
    RegularAll U V s as → Attains (extend R t as) s ((t.profile e).apply (profiles e as))
      fun x u s' => Applied U V s' e x t as u
  | [], t, ht, _ => by
    unfold extend
    rw [profiles, Skeleton.apply]
    exact .pure ⟨ht, rfl, le_max_left _ _, fun w => (Bool.or_false _).symm⟩
  | a :: as, t, ht, has => by
    by_cases hst : StandsAs t (a :: as)
    · rw [extend_of_stands hst ht, apply_profiles hst]
      exact attains_node hst ht has
    · cases t with
      | app n h bs =>
        obtain ⟨hst, hh, hbs⟩ := ht
        have merged : StandsAs h (bs ++ a :: as) := by
          refine ⟨by simp, hst.flat, fun hsucc n hn => ?_⟩
          obtain ⟨b, bs, rfl⟩ := List.exists_cons_of_ne_nil hst.nonempty
          exact hst.unmet hsucc n hn
        rw [extend_app, profile, profiles, Skeleton.apply, ← profiles, ← profiles_append]
        apply (attains_node merged hh (regularAll_append.mpr ⟨hbs, has⟩)).imp
        intro x u s' _ hu
        refine ⟨hu.regular, hu.profile, ?_, fun w => ?_⟩
        · have deep := hu.depth
          rw [lambdaDepthOfAll_append] at deep
          rw [lambdaDepth]
          omega
        · rw [hu.occurs, occursAny_append, occurs, Bool.or_assoc]
      | native c =>
        have met : c = .successor ∧ ∃ n, a = numeral n := by
          by_contra unmet
          refine hst ⟨List.cons_ne_nil a as, ?_, fun hsucc n hn => unmet ⟨?_, n, ?_⟩⟩
          · rintro _ _ _ ⟨⟩
          · injection hsucc
          · injection hn
        obtain ⟨rfl, n, rfl⟩ := met
        rw [profile, profiles, profile, Skeleton.apply]
        split
        · next hn =>
          rw [extend_successor_numeral R hn]
          apply (attains_extend as (regular_numeral (n + 1)) has.2).imp
          intro x u s' _ hu
          exact ⟨hu.regular, hu.profile, hu.depth, hu.occurs⟩
        · next hn =>
          have refused :
              extend R (native .successor) (numeral n :: as) = throw .numeralTooLong := by
            simp only [extend, Native.replacement, hn, if_false]
            rfl
          rw [refused]
          exact .throw
      | _ =>
        refine absurd ⟨List.cons_ne_nil a as, ?_, ?_⟩ hst
        · rintro _ _ _ ⟨⟩
        · rintro ⟨⟩

/-- Applying attains the application of the profiles. -/
theorem attains_apply (ht : t.Regular U V s) (hts : RegularAll U V s ts) :
    Attains (apply R t ts) s ((t.profile e).apply (profiles e ts))
      fun x u s' => Applied U V s' e x t ts u := by
  rw [apply_eq_extend R t hts.firstLiteral_eq_none]
  exact attains_extend ts ht hts

/-! ### Putting a value in place of a variable -/

/-- What becomes of a term when a value is put in place of a variable: a term of a profile, with the
other variables of the term, and those of the value where there was something to replace. -/
structure Substituted (U : Prop) (V : Set Variable) (s : Store) (e : Places) (v : Variable)
    (value : Term) (x : Skeleton) (t u : Term) : Prop where
  regular : u.Regular U V s
  profile : u.profile e = x
  depth : u.lambdaDepth ≤ t.lambdaDepth + value.lambdaDepth
  occurs : ∀ w, u.occurs w = true ↔
    (t.occurs w = true ∧ w ≠ v) ∨ (t.occurs v = true ∧ value.occurs w = true)

theorem Substituted.later {s' : Store} {x : Skeleton} (h : Substituted U V s e v value x t u)
    (hs : s ≤ s') : Substituted U V s' e v value x t u :=
  ⟨h.regular.later hs, h.profile, h.depth, h.occurs⟩

/-- What becomes of the terms of a list when a value is put in place of a variable. -/
structure SubstitutedAll (U : Prop) (V : Set Variable) (s : Store) (e : Places) (v : Variable)
    (value : Term) (xs : List Skeleton) (ts us : List Term) : Prop where
  regular : RegularAll U V s us
  profiles : profiles e us = xs
  depth : lambdaDepthOfAll us ≤ lambdaDepthOfAll ts + value.lambdaDepth
  occurs : ∀ w, occursAny w us = true ↔
    (occursAny w ts = true ∧ w ≠ v) ∨ (occursAny v ts = true ∧ value.occurs w = true)

/-- What is put at the place of a variable, when a value is put in place of one. -/
def Sets (e₀ e : Places) (v : Variable) (value : Term) (σ : Place → Skeleton) (w : Variable) :
    Prop :=
  σ (e₀ w) = if w = v then value.profile e else .var (e w)

/-- Below a lambda whose variable does not occur, a term is as it was. -/
theorem profile_bind (h : t.occurs v = false) (ht : t.Regular U V s) (e : Places) :
    t.profile (e.bind v) = (t.profile e).lift := by
  rw [Skeleton.lift, ← ht.exposed_nil, ← ht.exposed_nil, ← exposed_comp, ht.exposed_nil,
    ht.exposed_nil]
  refine profile_congr fun w hw => Places.bind_of_ne ?_
  rintro rfl
  rw [h] at hw
  cases hw

/-- Below a lambda the value has the lifted profile, if it does not mention the variable of the
lambda. -/
theorem Sets.bind {e₀ : Places} {σ : Place → Skeleton} {y : Variable}
    (h : w ≠ y → Sets e₀ e v value σ w) (hy : y ≠ v) (hvalue : value.occurs y = false)
    (hreg : value.Regular U V s) : Sets (e₀.bind y) (e.bind y) v value (Skeleton.under σ) w := by
  unfold Sets
  by_cases hw : w = y
  · subst hw
    rw [Places.bind_self, Places.bind_self, Skeleton.under_bound_zero, if_neg hy]
  · rw [Places.bind_of_ne hw, Places.bind_of_ne hw, Skeleton.under_lift, h hw,
      profile_bind hvalue hreg]
    split <;> rfl

/-- Where there is nothing to replace, the term stays. -/
private theorem attains_kept {reclose : Variable → Term → Engine Term} {e₀ : Places}
    {σ : Place → Skeleton} (ht : t.Regular U V s) (hv : t.occurs v = false)
    (hσ : ∀ w, t.occurs w = true → Sets e₀ e v value σ w) :
    Attains (replace R reclose t v value) s ((t.exposed [v] e₀).put σ) fun x o s' =>
      o.isSome = t.occurs v ∧ Substituted U V s' e v value x t (o.getD t) := by
  have other (w : Variable) (hw : t.occurs w = true) : w ≠ v := by
    rintro rfl
    rw [hv] at hw
    cases hw
  have stays : (t.exposed [v] e₀).put σ = .ok (t.profile e) := by
    rw [ht.put_exposed_of_vars fun w hw => (hσ w hw).trans (if_neg (other w hw)),
      ht.exposed_eq_profile]
    intro w hw _
    rwa [List.mem_singleton.mp hw]
  rw [replace_of_not_occurs hv, stays]
  refine .pure ⟨hv.symm, ht, rfl, Nat.le_add_right _ _, fun w => ?_⟩
  rw [Option.getD_none, hv]
  exact ⟨fun hw => .inl ⟨hw, other w hw⟩, fun h => h.elim And.left fun h => nomatch h.1⟩

/-- What is closed over a variable has the variables of a lambda over it. -/
theorem LambdaOf.occurs {b : Term} (h : LambdaOf U V s v b u) (hb : b.Regular U (insert v V) s)
    (hv : s.Minted v) (w : Variable) : u.occurs w = (lam v b).occurs w := by
  have body : (lam v b).Regular U V s := ⟨hv, hb⟩
  rw [← (h.regular.anti (Set.empty_subset V)).mentions_profile,
    ← (body.anti (Set.empty_subset V)).mentions_profile, h.profile]
  rfl

/-- The variable itself becomes the value. -/
private theorem substituted_var (hvalue : value.Regular U V s) :
    Substituted U V s e v value (value.profile e) (var v) value := by
  refine ⟨hvalue, rfl, Nat.le_add_left _ _, fun w => ?_⟩
  simp only [occurs, decide_true, true_and, decide_eq_true_iff]
  refine ⟨.inr, fun h => h.resolve_left ?_⟩
  rintro ⟨rfl, hne⟩
  exact hne rfl

/-- A lambda over another variable is closed again when there is a value in its body. -/
private theorem substituted_lam {y : Variable} {b b' : Term} {x : Skeleton}
    (hb' : Substituted U (insert y V) s (e.bind y) v value x b b') (hu : LambdaOf U V s y b' u)
    (hy : s.Minted y) (hyv : y ≠ v) (hb : b.occurs v = true) (absent : value.occurs y = false) :
    Substituted U V s e v value (.lam x) (lam y b) u := by
  refine ⟨hu.regular, by rw [hu.profile, hb'.profile], ?_, fun w => ?_⟩
  · have deep := hb'.depth
    rw [hu.depth, lambdaDepth]
    omega
  · rw [hu.occurs hb'.regular hy, occurs, occurs, occurs, Bool.and_eq_true, Bool.and_eq_true,
      Bool.and_eq_true, hb'.occurs w, hb]
    simp only [decide_eq_true_iff, hyv, ne_eq, not_false_eq_true, true_and, and_true]
    constructor
    · rintro ⟨hwy, h | h⟩
      · exact .inl ⟨⟨hwy, h.1⟩, h.2⟩
      · exact .inr h
    · rintro (⟨⟨hwy, h⟩, hne⟩ | h)
      · exact ⟨hwy, .inl ⟨h, hne⟩⟩
      · refine ⟨?_, .inr h⟩
        rintro rfl
        rw [absent] at h
        cases h

/-- An application is made again of what its parts become. -/
private theorem substituted_app {n : Nat} {h h' : Term} {as as' : List Term} {s' : Store}
    {x z : Skeleton} {xs : List Skeleton} (hh : Substituted U V s e v value x h h')
    (has : SubstitutedAll U V s' e v value xs as as') {s₁ : Store}
    (hu : Applied U V s₁ e z h' as' u) : Substituted U V s₁ e v value z (app n h as) u := by
  refine ⟨hu.regular, hu.profile, ?_, fun w => ?_⟩
  · have deep := hu.depth
    have := hh.depth
    have := has.depth
    rw [lambdaDepth]
    omega
  · rw [hu.occurs, occurs, occurs, Bool.or_eq_true, Bool.or_eq_true, Bool.or_eq_true, hh.occurs,
      has.occurs]
    tauto

mutual

/-- Putting a value in place of a variable attains what is put at the place of the variable, in what
is exposed of the term. There is a result, other than that nothing is to be replaced, exactly if
the variable occurs. -/
theorem attains_replace {reclose : Variable → Term → Engine Term} {depth : Nat}
    (hre : Rebinds U reclose depth) : ∀ (t : Term) {V : Set Variable} {s : Store} {e₀ e : Places}
    {σ : Place → Skeleton}, t.Regular U V s → value.Regular U V s →
      (∀ y, t.binds y = true → value.occurs y = false) →
      (∀ w, t.occurs w = true → Sets e₀ e v value σ w) →
      t.lambdaDepth + value.lambdaDepth ≤ depth →
      Attains (replace R reclose t v value) s ((t.exposed [v] e₀).put σ) fun x o s' =>
        o.isSome = t.occurs v ∧ Substituted U V s' e v value x t (o.getD t)
  | var w, V, s, e₀, e, σ, ht, hvalue, _, hσ, _ => by
    by_cases hw : w = v
    · subst hw
      have here := hσ w (by simp [occurs])
      rw [Sets, if_pos rfl] at here
      unfold replace
      simp only [isNull, hvalue.literal?_eq_none, decide_true, Bool.true_and]
      rw [exposed, Skeleton.put, here]
      exact .pure ⟨by simp [occurs], substituted_var hvalue⟩
    · exact attains_kept ht (by simp [occurs, hw]) hσ
  | native c, _, _, _, _, _, ht, _, _, hσ, _ => attains_kept ht rfl hσ
  | foreign x, _, _, _, _, _, ht, _, _, _, _ => ht.elim
  | named info d, V, s, e₀, e, σ, ht, hvalue, hbinds, hσ, hd => by
    by_cases hv : d.occurs v = true
    · unfold replace
      have gives : (named info d).exposed [v] e₀ = d.exposed [v] e₀ := by simp [exposed, hv]
      rw [gives]
      apply (attains_replace hre d ht.2.2 hvalue (fun y hy => hbinds y (by rwa [binds]))
        (fun w hw => hσ w (by rwa [occurs])) hd).imp
      rintro x o s' - ⟨hsome, ho⟩
      rw [hv] at hsome
      obtain ⟨u, rfl⟩ := Option.isSome_iff_exists.mp hsome
      exact ⟨by rw [occurs, hv]; rfl, ho.regular, ho.profile, ho.depth, ho.occurs⟩
    · exact attains_kept ht (by simpa [occurs] using hv) hσ
  | lam y b, V, s, e₀, e, σ, ht, hvalue, hbinds, hσ, hd => by
    by_cases hv : (lam y b).occurs v = true
    · obtain ⟨hy, hb⟩ : y ≠ v ∧ b.occurs v = true := by simpa [occurs] using hv
      have absent : value.occurs y = false := hbinds y (by simp [binds])
      rw [lambdaDepth] at hd
      unfold replace
      rw [if_neg hy, exposed, Skeleton.put]
      apply (attains_replace hre b ht.2 (hvalue.insert_absent absent)
        (fun z hz => hbinds z (by simp [binds, hz]))
        (fun w hw => .bind (fun hne => hσ w (by simp [occurs, hw, Ne.symm hne])) hy absent hvalue)
        (by omega)).bind
      rintro x o s₁ hs ⟨hsome, ho⟩
      rw [hb] at hsome
      obtain ⟨b', rfl⟩ := Option.isSome_iff_exists.mp hsome
      have deep : b'.lambdaDepth ≤ b.lambdaDepth + value.lambdaDepth := ho.depth
      have minted : s₁.Minted y := ht.1.mono hs
      apply Attains.after (hre V s₁ y b' minted ho.regular (by omega))
      intro u s₂ hs₂ hu
      exact .pure ⟨hv.symm, substituted_lam (ho.later hs₂) hu (minted.mono hs₂) hy hb absent⟩
    · exact attains_kept ht (Bool.eq_false_iff.mpr hv) hσ
  | app n h as, V, s, e₀, e, σ, ht, hvalue, hbinds, hσ, hd => by
    by_cases hv : (app n h as).occurs v = true
    · rw [lambdaDepth] at hd
      unfold replace
      rw [exposed, Skeleton.put_merge]
      apply (attains_replace hre h ht.2.1 hvalue (fun y hy => hbinds y (by simp [binds, hy]))
        (fun w hw => hσ w (by simp [occurs, hw])) (by omega)).bind
      rintro x h' s₁ hs₁ ⟨hsome, hh⟩
      apply (attains_replaceAll hre as (ht.2.2.later hs₁) (hvalue.later hs₁)
        (fun y hy => hbinds y (by simp [binds, hy])) (fun w hw => hσ w (by simp [occurs, hw]))
        (by omega)).bind
      rintro xs ps s₂ hs₂ ⟨-, hnone, hps⟩
      have changed : ¬ (h'.isNone && ps.all (·.2.isNone)) = true := by
        rw [hnone, ← Option.not_isSome, hsome, ← Bool.not_or]
        rw [occurs] at hv
        simp [hv]
      rw [if_neg changed, ← hh.profile, ← hps.profiles]
      refine Attains.map ((attains_apply (hh.regular.later hs₂) hps.regular).imp ?_)
      intro x u s₃ _ hu
      exact ⟨hv.symm, substituted_app hh hps hu⟩
    · exact attains_kept ht (Bool.eq_false_iff.mpr hv) hσ

theorem attains_replaceAll {reclose : Variable → Term → Engine Term} {depth : Nat}
    (hre : Rebinds U reclose depth) : ∀ (ts : List Term) {V : Set Variable} {s : Store}
    {e₀ e : Places} {σ : Place → Skeleton}, RegularAll U V s ts → value.Regular U V s →
      (∀ y, bindsAny y ts = true → value.occurs y = false) →
      (∀ w, occursAny w ts = true → Sets e₀ e v value σ w) →
      lambdaDepthOfAll ts + value.lambdaDepth ≤ depth →
      Attains (replaceAll R reclose ts v value) s (Skeleton.putAll σ (exposedAll [v] e₀ ts))
        fun xs ps s' => ps.map Prod.fst = ts ∧ ps.all (·.2.isNone) = !occursAny v ts ∧
          SubstitutedAll U V s' e v value xs ts (ps.map fun p => p.2.getD p.1)
  | [], _, _, _, _, _, _, _, _, _, _ => by
    unfold replaceAll
    refine .pure ⟨rfl, rfl, trivial, rfl, Nat.zero_le _, fun w => ?_⟩
    simp [occursAny]
  | t :: ts, V, s, e₀, e, σ, hts, hvalue, hbinds, hσ, hd => by
    rw [lambdaDepthOfAll] at hd
    unfold replaceAll
    rw [exposedAll, Skeleton.putAll]
    apply (attains_replace hre t hts.1 hvalue (fun y hy => hbinds y (by simp [bindsAny, hy]))
      (fun w hw => hσ w (by simp [occursAny, hw])) (by omega)).bind
    rintro x o s₁ hs₁ ⟨hsome, ho⟩
    apply (attains_replaceAll hre ts (hts.2.later hs₁) (hvalue.later hs₁)
      (fun y hy => hbinds y (by simp [bindsAny, hy])) (fun w hw => hσ w (by simp [occursAny, hw]))
      (by omega)).bind
    rintro xs ps s₂ hs₂ ⟨hfst, hnone, hps⟩
    refine .pure ⟨?_, ?_, ⟨ho.regular.later hs₂, hps.regular⟩, ?_, ?_, fun w => ?_⟩
    · rw [List.map_cons, hfst]
    · rw [List.all_cons, hnone, ← Option.not_isSome, hsome, occursAny, Bool.not_or]
    · rw [List.map_cons, profiles, ho.profile, hps.profiles]
    · have := ho.depth
      have := hps.depth
      simp only [List.map_cons, lambdaDepthOfAll]
      omega
    · rw [List.map_cons, occursAny, occursAny, occursAny, Bool.or_eq_true, Bool.or_eq_true,
        Bool.or_eq_true, ho.occurs, hps.occurs]
      tauto

end

end Term

/-! ### Substitution -/

namespace Skeleton

/-- What is put at the places of free variables when some of them are replaced at once. -/
def replacing : List Variable → List Skeleton → Place → Skeleton
  | v :: vs, x :: xs, p => if p = .free v then x else replacing vs xs p
  | _, _, p => var p

end Skeleton

namespace Term

/-- The profile of a term with values in place of some variables, all at once. Names that mention
one of the variables give way to their definitions. -/
def replaced (vs : List Variable) (values : List Term) (t : Term) : Except Failure Skeleton :=
  (t.exposed vs .free).put (Skeleton.replacing vs (profiles .free values))

/-- Putting values in place of variables fails, if at all, because of a numeral that is too long. -/
theorem onlyTooLong_replaced (vs : List Variable) (values : List Term) (t : Term) :
    OnlyTooLong (t.replaced vs values) :=
  Skeleton.onlyTooLong_put _ _

/-- To substitute a value for a variable of a regular term attains the profile of the term with the
value in place of the variable, if no lambda in the term binds a variable of the value. -/
theorem attains_subst (ht : t.Regular U ∅ s) (hvalue : value.Regular U ∅ s)
    (clear : ∀ y, t.binds y = true → value.occurs y = false) :
    Attains (subst R t v value) s (t.replaced [v] [value]) fun x o s' =>
      o.isSome = t.occurs v ∧ Substituted U ∅ s' .free v value x t (o.getD t) := by
  refine attains_replace (rebinds_abstract (t.lambdaDepth + value.lambdaDepth)) t ht hvalue clear
    (fun w _ => ?_) (Nat.le_refl _)
  simp [Sets, Skeleton.replacing, profiles]

/-- The body of a lambda with an argument in place of its variable attains what is put below the
lambda, if no lambda in it binds a variable of the argument. -/
theorem attains_instantiate {b a : Term} (hlam : (lam v b).Regular U ∅ s) (ha : a.Regular U ∅ s)
    (clear : ∀ y, (lam v b).binds y = true → a.occurs y = false) (e : Places) :
    Attains (instantiate R v b a) s ((b.profile (e.bind v)).put (Skeleton.passing (a.profile e)))
      fun x u s' => u.Regular U ∅ s' ∧ u.profile e = x := by
  have body : b.Regular U (insert v ∅) s := hlam.2
  have value : a.Regular U (insert v ∅) s := ha.insert_absent (clear v (by simp [binds]))
  have set (w : Variable) (_ : b.occurs w = true) :
      Sets (e.bind v) e v a (Skeleton.passing (a.profile e)) w := by
    by_cases hw : w = v
    · simp [Sets, hw, Skeleton.passing]
    · have other : Skeleton.passing (a.profile e) (e w).lift = .var (e w) := by cases e w <;> rfl
      simp [Sets, hw, Places.bind_of_ne, other]
  have bound : b.exposed [v] (e.bind v) = b.profile (e.bind v) :=
    body.exposed_eq_profile fun w hw hV => absurd (.inl (List.mem_singleton.mp hw)) hV
  rw [← bound]
  refine Attains.map ((attains_replace (rebinds_abstract _) b body value
    (fun y hy => clear y (by simp [binds, hy])) set (Nat.le_refl _)).imp ?_)
  rintro x o s' - ⟨-, ho⟩
  exact ⟨ho.regular.anti (Set.empty_subset _), ho.profile⟩

/-- Substitution is capture-avoiding. If no lambda in a term binds a variable of a value, to
substitute the value for a variable does nothing exactly if the variable does not occur in the term,
also in definitions of names. Otherwise the result is the term with the value in place of the
variable, up to the names of bound variables: every application is built again by applying, names
that mention the variable have given way to their definitions, and the others are kept. Its
variables are the others of the term and those of the value. There is a result unless one of the
applications is the successor of the longest numeral. -/
theorem subst_spec (R : Rules) (v : Variable) (ht : t.Regular True ∅ s)
    (hvalue : value.Regular True ∅ s) (clear : ∀ y, t.binds y = true → value.occurs y = false) :
    (t.occurs v = false → subst R t v value s = .ok none s) ∧
    (t.occurs v = true →
      (∀ x, t.replaced [v] [value] = .ok x → ∃ u s', subst R t v value s = .ok (some u) s' ∧
        u.profile .free = x ∧
        ∀ w, u.occurs w = true ↔ (t.occurs w = true ∧ w ≠ v) ∨ value.occurs w = true) ∧
      ∀ e, t.replaced [v] [value] = .error e → e = .numeralTooLong ∧
        ∃ s', subst R t v value s = .error .numeralTooLong s') := by
  refine ⟨fun hv => congrFun (replace_of_not_occurs hv) s,
    fun hv => ⟨fun x hx => ?_, fun e he => ?_⟩⟩
  · have attained := attains_subst (R := R) (v := v) ht hvalue clear
    rw [hx] at attained
    obtain ⟨o, s', hr, -, -, -, hsome, ho⟩ := attained
    rw [hv] at hsome
    obtain ⟨u, rfl⟩ := Option.isSome_iff_exists.mp hsome
    refine ⟨u, s', hr, ho.profile, fun w => ?_⟩
    rw [← Option.getD_some (a := u) (b := t), ho.occurs, hv]
    simp
  · obtain rfl := onlyTooLong_replaced _ _ _ e he
    have attained := attains_subst (R := R) (v := v) ht hvalue clear
    rw [he] at attained
    exact ⟨rfl, attained⟩

/-- The longest numeral cannot be put after the successor. -/
theorem subst_successor_tooLong (R : Rules) {k : Nat} (hk : ¬ k + 1 < Native.numeralBound) (n : Nat)
    (v : Variable) (s : Store) :
    subst R (app n (native .successor) [var v]) v (numeral k) s = .error .numeralTooLong s := by
  simp only [subst, replace, replaceAll, pure_bind]
  exact Engine.bind_of_error (apply_successor_tooLong R hk s)

namespace Replacing

/-- A variable that is replaced. -/
def x : Variable := ⟨"x", 1⟩

/-- The head of what is put in its place. -/
def y : Variable := ⟨"y", 2⟩

/-- A bound variable. -/
def z : Variable := ⟨"z", 3⟩

/-- A name for `x K`. -/
def name : Term :=
  .named ⟨0, "N", .number 0, .bool false, .bool false, .null⟩ (.app 1 (.var x) [.native .K])

/-- The term `S (λ z, N z)`. -/
def term : Term := .app 2 (.native .S) [.lam z (.app 3 name [.var z])]

/-- The term `y I`. -/
def value : Term := .app 4 (.var y) [.native .I]

/-- The store after all of them were built. -/
def store : Store := ⟨4, 5, ∅⟩

/-- One argument makes an application of a variable or a name. -/
private theorem standsAs_single {h a : Term} (flat : ∀ n g bs, h ≠ .app n g bs)
    (other : h ≠ .native .successor) : StandsAs h [a] :=
  ⟨List.cons_ne_nil _ _, flat, fun hsucc => absurd hsucc other⟩

theorem regular_term : term.Regular True ∅ store := by
  have minted_x : store.Minted x := show (1 : Int) < 4 by decide
  have minted_z : store.Minted z := show (3 : Int) < 4 by decide
  have definition : (Term.app 1 (.var x) [.native .K]).Regular True {z} store :=
    ⟨standsAs_single nofun nofun, minted_x, ⟨nofun, .inl rfl⟩, trivial⟩
  have absent (v : Variable) (hv : v ∈ ({z} : Set Variable)) :
      (Term.app 1 (.var x) [.native .K]).occurs v = false := by
    obtain rfl := hv
    rfl
  have body : (Term.app 3 name [.var z]).Regular True (insert z ∅) store := by
    rw [insert_empty_eq]
    exact ⟨standsAs_single nofun nofun, ⟨trivial, absent, definition⟩, minted_z, trivial⟩
  exact ⟨standsAs_single nofun nofun, ⟨nofun, .inl rfl⟩, ⟨minted_z, body⟩, trivial⟩

theorem regular_value : value.Regular True ∅ store := by
  have minted : store.Minted y := show (2 : Int) < 4 by decide
  exact ⟨standsAs_single nofun nofun, minted, ⟨nofun, .inl rfl⟩, trivial⟩

theorem clear (v : Variable) (hv : term.binds v = true) : value.occurs v = false := by
  have hv : v = z := by simpa [term, name, binds, bindsAny, eq_comm] using hv
  rw [hv]
  rfl

end Replacing

/-- With `y I` in place of `x`, the name for `x K` in `S (λ z, N z)` gives way to `y I K`, which is
one with the application that it heads. -/
theorem subst_sample : Replacing.term.Regular True ∅ Replacing.store ∧
    Replacing.value.Regular True ∅ Replacing.store ∧
    (∀ v, Replacing.term.binds v = true → Replacing.value.occurs v = false) ∧
    ∃ u s, subst Rules.undeclared Replacing.term Replacing.x Replacing.value Replacing.store =
        .ok (some u) s ∧
      u.profile .free = .app (.native .S) [.lam (.app (.var (.free Replacing.y))
        [.native .I, .native .K, .var (.bound 0)])] ∧
      u.occurs Replacing.x = false ∧ u.occurs Replacing.y = true := by
  have result : Replacing.term.replaced [Replacing.x] [Replacing.value] =
      .ok (.app (.native .S) [.lam (.app (.var (.free Replacing.y))
        [.native .I, .native .K, .var (.bound 0)])]) := rfl
  obtain ⟨u, s, hu, hprofile, hoccurs⟩ := ((subst_spec Rules.undeclared Replacing.x
    Replacing.regular_term Replacing.regular_value Replacing.clear).2 rfl).1 _ result
  refine ⟨Replacing.regular_term, Replacing.regular_value, Replacing.clear, u, s, hu, hprofile,
    ?_, (hoccurs _).mpr (.inr rfl)⟩
  rw [← Bool.not_eq_true, hoccurs]
  rintro (⟨-, hne⟩ | hv)
  · exact hne rfl
  · cases hv

/-- Where the longest numeral is put after the successor, there is no result. -/
theorem subst_longest :
    (Term.app 0 (.native .successor) [.var Replacing.x]).occurs Replacing.x = true ∧
      subst Rules.undeclared (.app 0 (.native .successor) [.var Replacing.x]) Replacing.x
        (.numeral (Native.numeralBound - 1)) Replacing.store =
      .error .numeralTooLong Replacing.store := by
  have long : ¬ Native.numeralBound - 1 + 1 < Native.numeralBound := by omega
  exact ⟨rfl, subst_successor_tooLong _ long _ _ _⟩

end Term

end Combinatory
