import Combinatory.Proofs.Profile
import Combinatory.Proofs.Putting
import Combinatory.Proofs.Regular

/-!
# Names that give way to a replacement

When something is put in place of a variable, a name whose definition mentions the variable gives
way to its definition, and all other names stay. What is exposed of a term, for some variables, is
its profile with those names opened that mention one of them; where such a name heads an
application, the two are one. In a regular term to put variables in place of variables is only to
move what is exposed (`put_exposed_of_vars`). What is exposed can be told from the profile, and to
expose a term for some variables and then for others is to expose it for all of them
(`expose_exposed`).
-/

namespace Combinatory

namespace Skeleton

variable {σ : Place → Skeleton} {r : Place → Place}

/-- A head with some arguments, which an application at the head takes over. -/
def merge : Skeleton → List Skeleton → Skeleton
  | app g bs, as => app g (bs ++ as)
  | h, as => app h as

theorem merge_of_flat {h : Skeleton} (flat : ∀ g bs, h ≠ app g bs) (as : List Skeleton) :
    h.merge as = app h as := by
  cases h with
  | app g bs => exact absurd rfl (flat g bs)
  | _ => rfl

theorem merge_merge (h : Skeleton) (bs as : List Skeleton) :
    (h.merge bs).merge as = h.merge (bs ++ as) := by
  cases h with
  | app g cs => exact congrArg (app g) (List.append_assoc cs bs as)
  | _ => rfl

/-- What is merged is a variable or a combinator in no case. -/
theorem merge_ne_native (h : Skeleton) (as : List Skeleton) (c : Native) :
    h.merge as ≠ native c := by
  cases h <;> exact nofun

theorem move_merge (r : Place → Place) (h : Skeleton) (as : List Skeleton) :
    (h.merge as).move r = (h.move r).merge (moveAll r as) := by
  cases h with
  | app g bs => exact congrArg (app (g.move r)) (moveAll_append r bs as)
  | _ => rfl

/-- Putting goes into the parts of what is merged. -/
theorem put_merge (σ : Place → Skeleton) (h : Skeleton) (as : List Skeleton) :
    (h.merge as).put σ = (do
      let h ← h.put σ
      h.apply (← putAll σ as)) := by
  cases h with
  | app g bs =>
    cases as with
    | nil => simp [merge, putAll, apply]
    | cons a as => exact put_apply σ (app g bs) (a :: as)
  | _ => rfl

end Skeleton

namespace Term

mutual

/-- The profile of a term with the names opened that mention one of some variables. -/
def exposed (vs : List Variable) (e : Places) : Term → Skeleton
  | var v => .var (e v)
  | native c => .native c
  | foreign x => .foreign x
  | named info d => if vs.any (d.occurs ·) then exposed vs e d else .named info d
  | lam v b => .lam (exposed vs (e.bind v) b)
  | app _ h as => (exposed vs e h).merge (exposedAll vs e as)

/-- What is exposed of the terms of a list. -/
def exposedAll (vs : List Variable) (e : Places) : List Term → List Skeleton
  | [] => []
  | a :: as => exposed vs e a :: exposedAll vs e as

end

variable {U : Prop} {V : Set Variable} {s : Store} {vs ws : List Variable} {e e' : Places}
  {σ : Place → Skeleton} {t u : Term} {v w : Variable}

/-- Whether a name gives way depends on the variables that its definition mentions. -/
private theorem any_occurs_congr {d : Term} (h : ∀ v, d.occurs v = true → (v ∈ vs ↔ v ∈ ws)) :
    vs.any (d.occurs ·) = ws.any (d.occurs ·) := by
  rw [Bool.eq_iff_iff, List.any_eq_true, List.any_eq_true]
  constructor
  · rintro ⟨v, hv, hd⟩
    exact ⟨v, (h v hd).mp hv, hd⟩
  · rintro ⟨v, hv, hd⟩
    exact ⟨v, (h v hd).mpr hv, hd⟩

mutual

/-- Only the variables that occur matter, and their places; no name mentions a variable that is
bound around it. -/
theorem Regular.exposed_congr : ∀ {t : Term} {V : Set Variable} {vs ws : List Variable}
    {e e' : Places}, t.Regular U V s → (∀ v, v ∉ V → t.occurs v = true → (v ∈ vs ↔ v ∈ ws)) →
      (∀ v, t.occurs v = true → e v = e' v) → t.exposed vs e = t.exposed ws e'
  | var v, _, _, _, _, _, _, _, he => by rw [exposed, exposed, he v (by simp [occurs])]
  | native _, _, _, _, _, _, _, _, _ => rfl
  | foreign _, _, _, _, _, _, _, _, _ => rfl
  | named info d, V, vs, ws, _, _, ht, hvs, he => by
    have outside (v : Variable) (hv : d.occurs v = true) : v ∉ V := by
      intro hV
      rw [ht.2.1 v hV] at hv
      cases hv
    have same : vs.any (d.occurs ·) = ws.any (d.occurs ·) :=
      any_occurs_congr fun v hv => hvs v (outside v hv) (by rwa [occurs])
    rw [exposed, exposed, same, Regular.exposed_congr ht.2.2
      (fun v hV hv => hvs v hV (by rwa [occurs])) fun v hv => he v (by rwa [occurs])]
  | lam y b, V, _, _, _, _, ht, hvs, he => by
    rw [exposed, exposed, Regular.exposed_congr ht.2]
    · intro v hV hv
      rw [Set.mem_insert_iff, not_or] at hV
      exact hvs v hV.2 (by simp [occurs, hv, Ne.symm hV.1])
    · intro v hv
      by_cases hvy : v = y
      · simp [hvy]
      · rw [Places.bind_of_ne hvy, Places.bind_of_ne hvy, he v]
        simp [occurs, hv, Ne.symm hvy]
  | app _ h as, _, _, _, _, _, ht, hvs, he => by
    rw [exposed, exposed, Regular.exposed_congr ht.2.1
      (fun v hV hv => hvs v hV (by simp [occurs, hv])) fun v hv => he v (by simp [occurs, hv]),
      RegularAll.exposedAll_congr ht.2.2 (fun v hV hv => hvs v hV (by simp [occurs, hv]))
      fun v hv => he v (by simp [occurs, hv])]

theorem RegularAll.exposedAll_congr : ∀ {ts : List Term} {V : Set Variable}
    {vs ws : List Variable} {e e' : Places}, RegularAll U V s ts →
      (∀ v, v ∉ V → occursAny v ts = true → (v ∈ vs ↔ v ∈ ws)) →
      (∀ v, occursAny v ts = true → e v = e' v) → exposedAll vs e ts = exposedAll ws e' ts
  | [], _, _, _, _, _, _, _, _ => rfl
  | t :: ts, _, _, _, _, _, hts, hvs, he => by
    rw [exposedAll, exposedAll, Regular.exposed_congr hts.1
      (fun v hV hv => hvs v hV (by simp [occursAny, hv]))
      fun v hv => he v (by simp [occursAny, hv]),
      RegularAll.exposedAll_congr hts.2 (fun v hV hv => hvs v hV (by simp [occursAny, hv]))
      fun v hv => he v (by simp [occursAny, hv])]

end

/-- Only an application has the profile of one. -/
theorem profile_ne_app (hflat : ∀ n g bs, t ≠ app n g bs) (x : Skeleton) (ys : List Skeleton) :
    t.profile e ≠ .app x ys := by
  cases t with
  | app n g bs => exact absurd rfl (hflat n g bs)
  | _ => exact nofun

mutual

/-- For no variables, the profile is exposed. -/
theorem Regular.exposed_nil : ∀ {t : Term} {V : Set Variable} {e : Places}, t.Regular U V s →
    t.exposed [] e = t.profile e
  | var _, _, _, _ => rfl
  | native _, _, _, _ => rfl
  | foreign _, _, _, _ => rfl
  | named _ _, _, _, _ => rfl
  | lam _ b, _, _, ht => congrArg Skeleton.lam (Regular.exposed_nil (t := b) ht.2)
  | app _ h as, _, _, ht => by
    rw [exposed, Regular.exposed_nil ht.2.1, RegularAll.exposedAll_nil ht.2.2, profile]
    exact Skeleton.merge_of_flat (profile_ne_app ht.1.flat) _

theorem RegularAll.exposedAll_nil : ∀ {ts : List Term} {V : Set Variable} {e : Places},
    RegularAll U V s ts → exposedAll [] e ts = profiles e ts
  | [], _, _, _ => rfl
  | _ :: _, _, _, hts => by
    rw [exposedAll, profiles, Regular.exposed_nil hts.1, RegularAll.exposedAll_nil hts.2]

end

/-- For variables that do not occur, the profile is exposed. -/
theorem Regular.exposed_eq_profile (ht : t.Regular U V s)
    (h : ∀ v ∈ vs, v ∉ V → t.occurs v = false) : t.exposed vs e = t.profile e := by
  rw [← ht.exposed_nil]
  refine ht.exposed_congr (fun v hV hv => ?_) fun v _ => rfl
  refine iff_of_false (fun hvs => ?_) (List.not_mem_nil)
  rw [h v hvs hV] at hv
  cases hv

mutual

/-- Moving the places of the variables moves what is exposed. -/
theorem exposed_comp (vs : List Variable) (r : Place → Place) : ∀ (t : Term) (e : Places),
    t.exposed vs (r ∘ e) = (t.exposed vs e).move r
  | var _, _ => rfl
  | native _, _ => rfl
  | foreign _, _ => rfl
  | named info d, e => by
    rw [exposed, exposed, exposed_comp vs r d e]
    split <;> rfl
  | lam v b, e => by rw [exposed, exposed, Places.comp_bind, exposed_comp vs _ b, Skeleton.move]
  | app _ hd as, e => by
    rw [exposed, exposed, exposed_comp vs r hd e, exposedAll_comp vs r as e, Skeleton.move_merge]

theorem exposedAll_comp (vs : List Variable) (r : Place → Place) : ∀ (ts : List Term) (e : Places),
    exposedAll vs (r ∘ e) ts = Skeleton.moveAll r (exposedAll vs e ts)
  | [], _ => rfl
  | t :: ts, e => by
    rw [exposedAll, exposedAll, exposed_comp vs r t e, exposedAll_comp vs r ts e, Skeleton.moveAll]

end

/-! ### Putting into what is exposed -/

/-- Below a lambda too it matters only what is put at the places of the variables. -/
theorem under_bind_congr {σ τ : Place → Skeleton} {y : Variable}
    (h : v ≠ y → σ (e v) = τ (e' v)) :
    Skeleton.under σ (e.bind y v) = Skeleton.under τ (e'.bind y v) := by
  by_cases hv : v = y
  · simp [hv]
  · rw [Places.bind_of_ne hv, Places.bind_of_ne hv, Skeleton.under_lift, Skeleton.under_lift, h hv]

mutual

/-- It matters only what is put at the places of the variables that occur. -/
theorem put_exposed_congr : ∀ {t : Term} {e e' : Places} {σ τ : Place → Skeleton},
    (∀ v, t.occurs v = true → σ (e v) = τ (e' v)) →
      (t.exposed vs e).put σ = (t.exposed vs e').put τ
  | var v, _, _, _, _, h => congrArg pure (h v (by simp [occurs]))
  | native _, _, _, _, _, _ => rfl
  | foreign _, _, _, _, _, _ => rfl
  | named info d, _, _, _, _, h => by
    rw [exposed, exposed]
    split
    · exact put_exposed_congr fun v hv => h v (by rwa [occurs])
    · rfl
  | lam y b, _, _, _, _, h => by
    rw [exposed, exposed, Skeleton.put, Skeleton.put, put_exposed_congr]
    exact fun v hv => under_bind_congr fun hne => h v (by simp [occurs, hv, Ne.symm hne])
  | app _ hd as, _, _, _, _, h => by
    rw [exposed, exposed, Skeleton.put_merge, Skeleton.put_merge,
      put_exposed_congr fun v hv => h v (by simp [occurs, hv]),
      putAll_exposedAll_congr fun v hv => h v (by simp [occurs, hv])]

theorem putAll_exposedAll_congr : ∀ {ts : List Term} {e e' : Places} {σ τ : Place → Skeleton},
    (∀ v, occursAny v ts = true → σ (e v) = τ (e' v)) →
      Skeleton.putAll σ (exposedAll vs e ts) = Skeleton.putAll τ (exposedAll vs e' ts)
  | [], _, _, _, _, _ => rfl
  | _ :: _, _, _, _, _, h => by
    rw [exposedAll, exposedAll, Skeleton.putAll, Skeleton.putAll,
      put_exposed_congr fun v hv => h v (by simp [occursAny, hv]),
      putAll_exposedAll_congr fun v hv => h v (by simp [occursAny, hv])]

end

/-- Nothing that gives way has a combinator for what is exposed of it. -/
theorem eq_native_of_exposed : ∀ {t : Term} {e : Places} {c : Native},
    t.exposed vs e = .native c → t = native c
  | var _, _, _, h => nomatch h
  | native _, _, _, h => by
    injection h with h
    rw [h]
  | foreign _, _, _, h => nomatch h
  | named info d, e, c, h => by
    rw [exposed] at h
    split at h
    · next hany =>
      obtain ⟨v, -, hv⟩ := List.any_eq_true.mp hany
      rw [eq_native_of_exposed h] at hv
      cases hv
    · cases h
  | lam _ _, _, _, h => nomatch h
  | app _ _ _, _, _, h => absurd h (Skeleton.merge_ne_native _ _ _)

/-- What is exposed of an application that can stand is put together as it stands. -/
theorem apply_exposed {h : Term} {as : List Term} (hst : StandsAs h as) :
    (h.exposed vs e).apply (exposedAll vs e as) =
      .ok ((h.exposed vs e).merge (exposedAll vs e as)) := by
  obtain ⟨a, as, rfl⟩ := List.exists_cons_of_ne_nil hst.nonempty
  have unmet : h.exposed vs e = .native .successor → ∀ n, a.exposed vs e ≠ .numeral n := by
    intro hsucc n hn
    have head := eq_native_of_exposed hsucc
    exact hst.unmet head n (congrArg some (eq_native_of_exposed hn))
  rw [exposedAll]
  generalize h.exposed vs e = x at unmet ⊢
  cases x with
  | app g bs => rfl
  | _ => exact Skeleton.apply_of_unmet nofun unmet

mutual

/-- To put variables in place of the variables that occur is to move what is exposed. -/
theorem Regular.put_exposed_of_vars : ∀ {t : Term} {V : Set Variable} {e e' : Places}
    {σ : Place → Skeleton}, t.Regular U V s → (∀ v, t.occurs v = true → σ (e v) = .var (e' v)) →
      (t.exposed vs e).put σ = .ok (t.exposed vs e')
  | var v, _, _, _, _, _, h => congrArg pure (h v (by simp [occurs]))
  | native _, _, _, _, _, _, _ => rfl
  | foreign _, _, _, _, _, _, _ => rfl
  | named info d, _, _, _, _, ht, h => by
    rw [exposed, exposed]
    split
    · exact Regular.put_exposed_of_vars ht.2.2 fun v hv => h v (by rwa [occurs])
    · rfl
  | lam y b, _, e, e', σ, ht, h => by
    have below (v : Variable) (hv : b.occurs v = true) :
        Skeleton.under σ (e.bind y v) = .var (e'.bind y v) := by
      by_cases hvy : v = y
      · simp [hvy]
      · rw [Places.bind_of_ne hvy, Places.bind_of_ne hvy, Skeleton.under_lift,
          h v (by simp [occurs, hv, Ne.symm hvy])]
        rfl
    rw [exposed, exposed, Skeleton.put, Regular.put_exposed_of_vars ht.2 below]
    rfl
  | app _ hd as, _, _, _, _, ht, h => by
    rw [exposed, exposed, Skeleton.put_merge,
      Regular.put_exposed_of_vars ht.2.1 fun v hv => h v (by simp [occurs, hv]),
      RegularAll.putAll_exposedAll_of_vars ht.2.2 fun v hv => h v (by simp [occurs, hv])]
    exact apply_exposed ht.1

theorem RegularAll.putAll_exposedAll_of_vars : ∀ {ts : List Term} {V : Set Variable}
    {e e' : Places} {σ : Place → Skeleton}, RegularAll U V s ts →
      (∀ v, occursAny v ts = true → σ (e v) = .var (e' v)) →
      Skeleton.putAll σ (exposedAll vs e ts) = .ok (exposedAll vs e' ts)
  | [], _, _, _, _, _, _ => rfl
  | _ :: _, _, _, _, _, hts, h => by
    rw [exposedAll, exposedAll, Skeleton.putAll,
      Regular.put_exposed_of_vars hts.1 fun v hv => h v (by simp [occursAny, hv]),
      RegularAll.putAll_exposedAll_of_vars hts.2 fun v hv => h v (by simp [occursAny, hv])]
    rfl

end

/-- To put each variable in its own place changes nothing. -/
theorem Regular.put_profile (ht : t.Regular U V s) :
    (t.profile e).put .var = .ok (t.profile e) := by
  rw [← ht.exposed_nil]
  exact ht.put_exposed_of_vars fun _ _ => rfl

end Term

/-! ### Exposing more -/

namespace Skeleton

mutual

/-- Opens the names in a skeleton that mention one of some variables. Free variables stand at some
places afterwards. -/
def expose (vs : List Variable) (e : Places) : Skeleton → Skeleton
  | var p => var (e.settle p)
  | native c => native c
  | foreign x => foreign x
  | named info d => if vs.any (d.occurs ·) then d.exposed vs e else named info d
  | lam b => lam (expose vs (Place.lift ∘ e) b)
  | app h as => (expose vs e h).merge (exposeAll vs e as)

/-- The skeletons of a list with such names opened. -/
def exposeAll (vs : List Variable) (e : Places) : List Skeleton → List Skeleton
  | [] => []
  | a :: as => expose vs e a :: exposeAll vs e as

end

theorem exposeAll_append (vs : List Variable) (e : Places) (xs ys : List Skeleton) :
    exposeAll vs e (xs ++ ys) = exposeAll vs e xs ++ exposeAll vs e ys := by
  induction xs with
  | nil => rfl
  | cons x xs ih => rw [List.cons_append, exposeAll, exposeAll, ih, List.cons_append]

theorem expose_merge (vs : List Variable) (e : Places) (h : Skeleton) (as : List Skeleton) :
    (h.merge as).expose vs e = (h.expose vs e).merge (exposeAll vs e as) := by
  cases h with
  | app g bs => rw [merge, expose, expose, exposeAll_append, merge_merge]
  | _ => rfl

end Skeleton

namespace Term

variable {U : Prop} {V : Set Variable} {s : Store} {vs ws : List Variable} {e e' : Places}
  {t u : Term}

mutual

/-- To expose a term for some variables and then for others is to expose it for all of them. -/
theorem expose_exposed : ∀ {t : Term} {V : Set Variable} {e e' : Places}, t.Regular U V s →
    (∀ w, w ∉ V → w ∉ ws → e' w = .free w) →
      (t.exposed ws e').expose vs e = t.exposed (ws ++ vs) (e.settle ∘ e')
  | var _, _, _, _, _, _ => rfl
  | native _, _, _, _, _, _ => rfl
  | foreign _, _, _, _, _, _ => rfl
  | named info d, V, e, e', ht, he => by
    rw [exposed, exposed, List.any_append]
    by_cases hws : ws.any (d.occurs ·) = true
    · rw [if_pos hws, hws, Bool.true_or, if_pos rfl, expose_exposed ht.2.2 he]
    · have absent (w : Variable) (hw : w ∈ ws) : d.occurs w = false := by
        rw [← Bool.not_eq_true]
        exact fun h => hws (List.any_eq_true.mpr ⟨w, hw, h⟩)
      rw [if_neg hws, Bool.eq_false_iff.mpr hws, Bool.false_or, Skeleton.expose]
      split
      · refine ht.2.2.exposed_congr (fun v _ hv => ?_) fun v hv => ?_
        · rw [List.mem_append]
          refine ⟨.inr, fun h => h.resolve_left fun hw => ?_⟩
          rw [absent v hw] at hv
          cases hv
        · have outside : v ∉ V := by
            intro hV
            rw [ht.2.1 v hV] at hv
            cases hv
          have other : v ∉ ws := by
            intro hw
            rw [absent v hw] at hv
            cases hv
          rw [Function.comp_apply, he v outside other]
          rfl
      · rfl
  | lam y b, V, e, e', ht, he => by
    have below (w : Variable) (hV : w ∉ insert y V) (hw : w ∉ ws) : e'.bind y w = .free w := by
      rw [Set.mem_insert_iff, not_or] at hV
      rw [Places.bind_of_ne hV.1, he w hV.2 hw]
      rfl
    rw [exposed, exposed, Skeleton.expose, expose_exposed ht.2 below, Places.settle_comp_bind]
  | app _ h as, _, _, _, ht, he => by
    rw [exposed, exposed, Skeleton.expose_merge, expose_exposed ht.2.1 he,
      exposeAll_exposedAll ht.2.2 he]

theorem exposeAll_exposedAll : ∀ {ts : List Term} {V : Set Variable} {e e' : Places},
    RegularAll U V s ts → (∀ w, w ∉ V → w ∉ ws → e' w = .free w) →
      Skeleton.exposeAll vs e (exposedAll ws e' ts) = exposedAll (ws ++ vs) (e.settle ∘ e') ts
  | [], _, _, _, _, _ => rfl
  | _ :: _, _, _, _, hts, he => by
    rw [exposedAll, exposedAll, Skeleton.exposeAll, expose_exposed hts.1 he,
      exposeAll_exposedAll hts.2 he]

end

/-- What is exposed of a term can be told from its profile. -/
theorem Regular.expose_profile (ht : t.Regular U V s) (vs : List Variable) (e : Places) :
    (t.profile .free).expose vs e = t.exposed vs e := by
  rw [← ht.exposed_nil, expose_exposed ht fun _ _ _ => rfl]
  rfl

end Term

/-! ### Variables of a profile -/

namespace Skeleton

mutual

/-- Whether a free variable is in a skeleton, definitions of names included. -/
def mentions (v : Variable) : Skeleton → Bool
  | var p => p = .free v
  | native _ => false
  | foreign _ => false
  | named _ d => d.occurs v
  | lam b => mentions v b
  | app h as => mentions v h || mentionsAny v as

/-- Whether a free variable is in one of some skeletons. -/
def mentionsAny (v : Variable) : List Skeleton → Bool
  | [] => false
  | a :: as => mentions v a || mentionsAny v as

end

end Skeleton

namespace Term

variable {U : Prop} {s : Store} {t u : Term} {v : Variable}

mutual

/-- The profile of a term, below lambdas of some variables, has the other variables of the term. -/
private theorem mentions_profile_below : ∀ {t : Term} {V : Set Variable} {e : Places},
    t.Regular U V s → (∀ w, w ∉ V → e w = .free w) → (∀ w ∈ V, e w ≠ .free v) →
      ((t.profile e).mentions v = true ↔ t.occurs v = true ∧ v ∉ V)
  | var w, V, e, _, hfree, hbound => by
    rw [profile, Skeleton.mentions, occurs, decide_eq_true_iff, decide_eq_true_iff]
    by_cases hw : w ∈ V
    · refine iff_of_false (hbound w hw) ?_
      rintro ⟨rfl, hv⟩
      exact hv hw
    · rw [hfree w hw, Place.free.injEq]
      refine ⟨?_, And.left⟩
      rintro rfl
      exact ⟨rfl, hw⟩
  | native _, _, _, _, _, _ => by simp [profile, Skeleton.mentions, occurs]
  | foreign _, _, _, ht, _, _ => ht.elim
  | named info d, V, _, ht, _, _ => by
    rw [profile, Skeleton.mentions, occurs]
    refine ⟨fun hv => ⟨hv, fun hV => ?_⟩, And.left⟩
    rw [ht.2.1 v hV] at hv
    cases hv
  | lam y b, V, e, ht, hfree, hbound => by
    rw [profile, Skeleton.mentions, mentions_profile_below ht.2, occurs, Set.mem_insert_iff,
      Bool.and_eq_true, decide_eq_true_iff]
    · constructor
      · rintro ⟨hv, hV⟩
        exact ⟨⟨fun h => hV (.inl h.symm), hv⟩, fun h => hV (.inr h)⟩
      · rintro ⟨⟨hy, hv⟩, hV⟩
        exact ⟨hv, fun h => h.elim (fun h => hy h.symm) hV⟩
    · intro w hw
      rw [Set.mem_insert_iff, not_or] at hw
      rw [Places.bind_of_ne hw.1, hfree w hw.2]
      rfl
    · intro w hw
      by_cases hwy : w = y
      · rw [hwy, Places.bind_self]
        exact nofun
      · rw [Places.bind_of_ne hwy]
        have := hbound w (hw.resolve_left hwy)
        intro h
        exact this (Place.lift_injective h)
  | app _ h as, V, e, ht, hfree, hbound => by
    rw [profile, Skeleton.mentions, occurs, Bool.or_eq_true, Bool.or_eq_true,
      mentions_profile_below ht.2.1 hfree hbound, mentionsAny_profiles_below ht.2.2 hfree hbound,
      or_and_right]

private theorem mentionsAny_profiles_below : ∀ {ts : List Term} {V : Set Variable} {e : Places},
    RegularAll U V s ts → (∀ w, w ∉ V → e w = .free w) → (∀ w ∈ V, e w ≠ .free v) →
      (Skeleton.mentionsAny v (profiles e ts) = true ↔ occursAny v ts = true ∧ v ∉ V)
  | [], _, _, _, _, _ => by simp [profiles, Skeleton.mentionsAny, occursAny]
  | _ :: _, _, _, hts, hfree, hbound => by
    rw [profiles, Skeleton.mentionsAny, occursAny, Bool.or_eq_true, Bool.or_eq_true,
      mentions_profile_below hts.1 hfree hbound, mentionsAny_profiles_below hts.2 hfree hbound,
      or_and_right]

end

/-- The profile of a regular term has the variables of the term. -/
theorem Regular.mentions_profile (ht : t.Regular U ∅ s) :
    (t.profile .free).mentions v = t.occurs v := by
  rw [Bool.eq_iff_iff, mentions_profile_below ht (fun _ _ => rfl) fun _ h => h.elim]
  exact and_iff_left (Set.notMem_empty v)

end Term

end Combinatory
