import Combinatory.Proofs.Meaning.Substitution
import Combinatory.Proofs.Nameless
import Combinatory.Proofs.Regular

/-!
# Terms with all names opened

The skeleton of a term with all its names opened, terminal or not, is what remains of the term when
names are taken to be nothing but abbreviations: where a name at the head of an application stands
for an application, the two are one. Applying terms, putting one in place of a variable and closing
one over a variable do to these skeletons what they do to terms, with the names left closed
(`ensures_opened_replace`, `ensures_opened_abstract`), and to expand a term leaves them as they are
(`ensures_opened_expand`).
-/

namespace Combinatory

open Engine (Ensures)

namespace Skeleton

/-! ### Building without a bound for numerals -/

/-- A skeleton applied to others, where numerals may have any length. -/
def extend : Skeleton → List Skeleton → Skeleton
  | x, [] => x
  | app h bs, a :: as => app h (bs ++ a :: as)
  | native .successor, native (.numeral n) :: as => extend (numeral (n + 1)) as
  | x, a :: as => app x (a :: as)

/-- Where the successor has met no numeral, an application is put together as it stands. -/
theorem extend_of_unmet {h a : Skeleton} {as : List Skeleton} (flat : ∀ g bs, h ≠ app g bs)
    (unmet : h = native .successor → ∀ n, a ≠ numeral n) :
    extend h (a :: as) = app h (a :: as) := by
  unfold extend
  split <;> simp_all

@[simp] theorem extend_nil (x : Skeleton) : x.extend [] = x := by
  unfold extend
  rfl

/-- An application is extended by more arguments. -/
@[simp] theorem extend_app (h : Skeleton) (as bs : List Skeleton) :
    (app h as).extend bs = app h (as ++ bs) := by
  cases bs <;> simp [extend]

/-- To apply twice is to apply to all arguments at once. -/
theorem extend_extend (x : Skeleton) (as bs : List Skeleton) :
    (x.extend as).extend bs = x.extend (as ++ bs) := by
  fun_induction extend x as with
  | case1 x => rfl
  | case2 h cs a as => simp
  | case3 n as ih => rw [ih, List.cons_append, extend]
  | case4 x a as flat unmet =>
    have stands : x.extend (a :: (as ++ bs)) = app x (a :: (as ++ bs)) :=
      extend_of_unmet flat fun hx n => unmet n hx
    rw [extend_app, List.cons_append, stands]

mutual

/-- Puts skeletons at the places of variables, where numerals may have any length. -/
def fill (σ : Place → Skeleton) : Skeleton → Skeleton
  | var p => σ p
  | lam b => lam (fill (under σ) b)
  | app h as => (fill σ h).extend (fillAll σ as)
  | native c => native c
  | foreign x => foreign x
  | named info d => named info d

/-- Puts skeletons at the places of the variables of all skeletons of a list. -/
def fillAll (σ : Place → Skeleton) : List Skeleton → List Skeleton
  | [] => []
  | a :: as => fill σ a :: fillAll σ as

end

theorem fillAll_append (σ : Place → Skeleton) (xs ys : List Skeleton) :
    fillAll σ (xs ++ ys) = fillAll σ xs ++ fillAll σ ys := by
  induction xs with
  | nil => rfl
  | cons x xs ih => rw [List.cons_append, fillAll, fillAll, ih, List.cons_append]

/-- Filling goes into the parts of what is applied. -/
theorem fill_extend (σ : Place → Skeleton) (x : Skeleton) (as : List Skeleton) :
    (x.extend as).fill σ = (x.fill σ).extend (fillAll σ as) := by
  fun_induction extend x as with
  | case1 x => rw [fillAll, extend_nil]
  | case2 h bs a as => rw [fill, fill, extend_extend, fillAll_append]
  | case3 n as ih => rw [ih, fillAll, fill, fill, fill, extend]
  | case4 x a as _ _ => rw [fill]

/-- Moving the places goes into the parts of what is applied. -/
theorem move_extend (r : Place → Place) (x : Skeleton) (as : List Skeleton) :
    (x.extend as).move r = (x.move r).extend (moveAll r as) := by
  fun_induction extend x as with
  | case1 x => rw [moveAll, extend_nil]
  | case2 h bs a as => rw [move, move, extend_app, moveAll_append]
  | case3 n as ih => rw [ih, moveAll, move, move, move, extend]
  | case4 x a as flat unmet =>
    rw [move, moveAll, extend_of_unmet]
    · cases x <;> simp_all [move]
    · cases x <;> cases a <;> simp_all [move]

end Skeleton

namespace Term

/-! ### Opening -/

mutual

/-- The skeleton of a term with all names opened, whose free variables stand at some places. -/
def opened (e : Places) : Term → Skeleton
  | var v => .var (e v)
  | native c => .native c
  | foreign x => .foreign x
  | named _ d => opened e d
  | lam v b => .lam (opened (e.bind v) b)
  | app _ h as => (opened e h).extend (openedAll e as)

/-- The skeletons of the terms of a list with all names opened. -/
def openedAll (e : Places) : List Term → List Skeleton
  | [] => []
  | a :: as => opened e a :: openedAll e as

end

variable {R : Rules} {Γ : Scope} {V : Set Variable} {s : Store} {e e₀ : Places} {t : Term}
  {v w : Variable}

theorem openedAll_eq_map (e : Places) (ts : List Term) : openedAll e ts = ts.map (opened e) := by
  induction ts with
  | nil => rfl
  | cons t ts ih => rw [openedAll, ih, List.map_cons]

theorem openedAll_append (e : Places) (ts us : List Term) :
    openedAll e (ts ++ us) = openedAll e ts ++ openedAll e us := by
  rw [openedAll_eq_map, openedAll_eq_map, openedAll_eq_map, List.map_append]

mutual

/-- Moving the places of the variables moves the skeleton. -/
theorem opened_comp (r : Place → Place) : ∀ (t : Term) (e : Places),
    t.opened (r ∘ e) = (t.opened e).move r
  | var _, _ => rfl
  | native _, _ => rfl
  | foreign _, _ => rfl
  | named _ d, e => opened_comp r d e
  | lam v b, e => by rw [opened, opened, Places.comp_bind, opened_comp _ b, Skeleton.move]
  | app _ hd as, e => by
    rw [opened, opened, opened_comp r hd e, openedAll_comp r as e, Skeleton.move_extend]

theorem openedAll_comp (r : Place → Place) : ∀ (ts : List Term) (e : Places),
    openedAll (r ∘ e) ts = Skeleton.moveAll r (openedAll e ts)
  | [], _ => rfl
  | t :: ts, e => by
    rw [openedAll, openedAll, opened_comp r t e, openedAll_comp r ts e, Skeleton.moveAll]

end

mutual

/-- Filling the places of the variables that occur with variables puts these at other places. -/
theorem fill_opened : ∀ {t : Term} {e₀ e : Places} {σ : Place → Skeleton},
    (∀ w, t.occurs w = true → σ (e₀ w) = .var (e w)) → (t.opened e₀).fill σ = t.opened e
  | var v, _, _, _, h => h v (by simp [occurs])
  | native _, _, _, _, _ => rfl
  | foreign _, _, _, _, _ => rfl
  | named _ d, _, _, _, h => fill_opened (t := d) fun w hw => h w (by rwa [occurs])
  | lam v b, _, _, _, h => by
    rw [opened, opened, Skeleton.fill, fill_opened]
    intro w hw
    by_cases hwv : w = v
    · simp [hwv]
    · rw [Places.bind_of_ne hwv, Places.bind_of_ne hwv, Skeleton.under_lift,
        h w (by simp [occurs, hw, Ne.symm hwv])]
      rfl
  | app _ hd as, _, _, _, h => by
    rw [opened, opened, Skeleton.fill_extend, fill_opened fun w hw => h w (by simp [occurs, hw]),
      fillAll_opened fun w hw => h w (by simp [occurs, hw])]

theorem fillAll_opened : ∀ {ts : List Term} {e₀ e : Places} {σ : Place → Skeleton},
    (∀ w, occursAny w ts = true → σ (e₀ w) = .var (e w)) →
      Skeleton.fillAll σ (openedAll e₀ ts) = openedAll e ts
  | [], _, _, _, _ => rfl
  | _ :: _, _, _, _, h => by
    rw [openedAll, openedAll, Skeleton.fillAll,
      fill_opened fun w hw => h w (by simp [occursAny, hw]),
      fillAll_opened fun w hw => h w (by simp [occursAny, hw])]

end

/-- Only the places of the variables that occur matter. -/
theorem opened_congr (h : ∀ w, t.occurs w = true → e₀ w = e w) : t.opened e₀ = t.opened e := by
  have same : (t.opened e₀).fill .var = t.opened e₀ := fill_opened fun _ _ => rfl
  rw [← same]
  exact fill_opened fun w hw => congrArg Skeleton.var (h w hw)

/-- Below a lambda whose variable does not occur, a term is as it was. -/
theorem opened_bind (h : t.occurs v = false) (e : Places) :
    t.opened (e.bind v) = (t.opened e).lift := by
  rw [Skeleton.lift, ← opened_comp]
  refine opened_congr fun w hw => Places.bind_of_ne ?_
  rintro rfl
  rw [h] at hw
  cases hw

mutual

/-- A regular term without names has nothing to open. -/
theorem Regular.opened_eq_skeleton : ∀ {t : Term} {V : Set Variable} {e : Places},
    t.Regular False V s → t.opened e = t.skeleton e
  | var _, _, _, _ => rfl
  | native _, _, _, _ => rfl
  | foreign _, _, _, ht => ht.elim
  | named _ _, _, _, ht => ht.1.elim
  | lam _ b, _, _, ht => congrArg Skeleton.lam (Regular.opened_eq_skeleton (t := b) ht.2)
  | app _ h as, _, _, ⟨hst, hh, has⟩ => by
    rw [opened, skeleton, Regular.opened_eq_skeleton hh, RegularAll.openedAll_eq_skeletons has]
    obtain ⟨a, as, rfl⟩ := List.exists_cons_of_ne_nil hst.nonempty
    refine Skeleton.extend_of_unmet (hh.skeleton_ne_app hst.flat) fun hsucc n hn => ?_
    rw [has.1.skeleton_eq_native hn] at hst
    exact hst.unmet (hh.skeleton_eq_native hsucc) n rfl

theorem RegularAll.openedAll_eq_skeletons : ∀ {ts : List Term} {V : Set Variable} {e : Places},
    RegularAll False V s ts → openedAll e ts = skeletons e ts
  | [], _, _, _ => rfl
  | _ :: _, _, _, hts => by
    rw [openedAll, skeletons, Regular.opened_eq_skeleton hts.1,
      RegularAll.openedAll_eq_skeletons hts.2]

end

/-! ### Application -/

/-- A combinator that replaces itself and its first argument is the successor of a numeral. -/
private theorem extend_of_replacement {c : Native} (hc : c.isPure = true) {a r : Term}
    {s s' : Store} (h : c.replacement R a s = .ok (some r) s') (e : Places)
    (xs : List Skeleton) :
    (r.opened e).extend xs = Skeleton.extend (.native c) (a.opened e :: xs) := by
  unfold Native.replacement at h
  split at h
  · split at h
    · split at h
      · cases h
        rw [opened, opened, Skeleton.extend]
      · cases h
    · cases h
  · cases hc
  · cases hc
  · cases h

private theorem ensures_opened_extend : ∀ (as : List Term) {t : Term} {s : Store}, t.Fits Γ s →
    Ensures (extend R t as) s fun u _ =>
      ∀ e, u.opened e = (t.opened e).extend (openedAll e as)
  | [], t, s, _ => by
    unfold extend
    refine .pure fun e => ?_
    rw [openedAll, Skeleton.extend_nil]
  | a :: as, t, s, ht => by
    unfold extend
    split
    · next n h bs =>
      apply (Engine.ensures_node h (bs ++ a :: as) s).imp
      rintro _ s' _ ⟨m, rfl⟩ e
      rw [opened, opened, Skeleton.extend_extend, openedAll_append]
    · next c =>
      apply (c.ensures_replacement (η := True) R Γ s ht a).traced.bind
      rintro o s₁ hs ⟨hr, heq⟩
      cases o with
      | some r =>
        apply (ensures_opened_extend as (hr r rfl).fits).imp
        intro u s' _ hu e
        rw [hu e, extend_of_replacement ht heq, opened, openedAll]
      | none =>
        apply (Engine.ensures_node (native c) (a :: as) s₁).imp
        rintro _ s' _ ⟨m, rfl⟩ e
        rfl
    · apply (Engine.ensures_node t (a :: as) s).imp
      rintro _ s' _ ⟨m, rfl⟩ e
      rw [opened]

/-- Applying terms applies what they are with all names opened. -/
theorem ensures_opened_apply (ht : t.Fits Γ s) (as : List Term) :
    Ensures (apply R t as) s fun u _ => ∀ e, u.opened e = (t.opened e).extend (openedAll e as) := by
  unfold apply
  split
  · exact .throw
  · exact ensures_opened_extend as ht

/-! ### Putting a term in place of a variable -/

/-- What stands at the place of a variable when a value is put in place of one. -/
def Lands (e₀ e : Places) (v : Variable) (value : Term) (σ : Place → Skeleton) (w : Variable) :
    Prop :=
  σ (e₀ w) = if w = v then value.opened e else .var (e w)

/-- Below a lambda the value is the lifted one, if it does not mention the variable of the
lambda. -/
theorem Lands.bind {value : Term} {σ : Place → Skeleton} {y : Variable}
    (h : w ≠ y → Lands e₀ e v value σ w) (hy : y ≠ v) (hvalue : value.occurs y = false) :
    Lands (e₀.bind y) (e.bind y) v value (Skeleton.under σ) w := by
  unfold Lands
  by_cases hw : w = y
  · subst hw
    rw [Places.bind_self, Places.bind_self, Skeleton.under_bound_zero, if_neg hy]
  · rw [Places.bind_of_ne hw, Places.bind_of_ne hw, Skeleton.under_lift, h hw, opened_bind hvalue]
    split <;> rfl

/-- Whether closing a body makes a lambda with the body below it. -/
def Encloses (reclose : Variable → Term → Engine Term) : Prop :=
  ∀ (Γ : Scope) (s : Store) (w : Variable) (b : Term), Γ.Minted s → b.Fits (Γ.see w) s →
    Ensures (reclose w b) s fun u _ => ∀ e, u.opened e = .lam (b.opened (e.bind w))

mutual

/-- Putting a value in place of a variable fills its place with the value. -/
theorem ensures_opened_replace {reclose : Variable → Term → Engine Term}
    (hre : Recloses True reclose) (henc : Encloses reclose) {v : Variable} {value : Term} :
    ∀ (t : Term) {Γ : Scope} {s : Store} {e₀ e : Places} {σ : Place → Skeleton},
      Insertable Γ s value → t.Fits (Γ.see v) s →
      (∀ w, t.occurs w = true → Lands e₀ e v value σ w) →
      Ensures (replace R reclose t v value) s fun o _ => (o.getD t).opened e = (t.opened e₀).fill σ
  | var w, Γ, s, e₀, e, σ, hv, ht, hσ => by
    have here := hσ w (by simp [occurs])
    rw [Lands] at here
    unfold replace
    rw [opened, Skeleton.fill, here]
    refine .pure ?_
    by_cases hw : w = v
    · simp [hw, isNull, hv.fits.literal?_eq_none]
    · simp only [hw, if_false, decide_false, Bool.false_and, Bool.false_eq_true, Option.getD_none]
      rfl
  | native c, _, _, _, _, _, _, _, _ => by
    unfold replace
    exact .pure rfl
  | foreign x, _, _, _, _, _, _, _, _ => by
    unfold replace
    exact .pure rfl
  | named info d, Γ, s, e₀, e, σ, hv, ht, hσ => by
    unfold replace
    apply (ensures_opened_replace hre henc d hv ht.2 fun w hw => hσ w (by rwa [occurs])).imp
    intro o s' _ ho
    cases o with
    | some u => exact ho
    | none => exact ho
  | lam y b, Γ, s, e₀, e, σ, hv, ht, hσ => by
    unfold replace
    split
    · next hyv =>
      -- the lambda binds the variable itself, so only others are seen from outside
      have kept : ((lam y b).opened e₀).fill σ = (lam y b).opened e := by
        refine fill_opened fun w hw => ?_
        have other : w ≠ v := by
          rintro rfl
          rw [occurs, Bool.and_eq_true, decide_eq_true_iff] at hw
          exact hw.1 hyv
        exact (hσ w hw).trans (if_neg other)
      exact .pure kept.symm
    · next hyv =>
      obtain ⟨hy, hm, hb⟩ := ht
      have absent : value.occurs y = false := Bool.eq_false_iff.mpr fun h => hy (hv.taken y h)
      have below : b.Fits ((Γ.see y).see v) s := hb.mono (below_body Γ v y)
      have found := ensures_opened_replace hre henc b (hv.see hm) below fun w hw =>
        Lands.bind (fun hne => hσ w (by simp [occurs, hw, Ne.symm hne])) hyv absent
      apply (found.and (ensures_replace R hre b (hv.see hm) below)).bind
      rintro o s₁ hs ⟨ho, hmeans⟩
      cases o with
      | some b' =>
        apply (henc Γ s₁ y b' (hv.scope.later hs) hmeans.fits).bind
        intro u s₂ _ hu
        refine .pure ?_
        rw [Option.getD_some, hu, opened, Skeleton.fill, ← ho]
        rfl
      | none =>
        refine .pure ?_
        rw [Option.getD_none, opened, opened, Skeleton.fill, ← ho]
        rfl
  | app n h as, Γ, s, e₀, e, σ, hv, ht, hσ => by
    unfold replace
    have head := ensures_opened_replace hre henc h hv ht.2.1 fun w hw =>
      hσ w (by simp [occurs, hw])
    apply (head.and (ensures_replace R hre h hv ht.2.1)).bind
    rintro h' s₁ hs₁ ⟨hh, hmeans⟩
    apply (ensures_opened_replaceAll hre henc as (hv.later hs₁) (ht.2.2.later hs₁) fun w hw =>
      hσ w (by simp [occurs, hw])).bind
    rintro ps s₂ hs₂ ⟨hfst, hps⟩
    rw [opened, Skeleton.fill_extend, ← hh, ← hps]
    split
    · next hnone =>
      rw [Bool.and_eq_true, Option.isNone_iff_eq_none] at hnone
      obtain ⟨rfl, hall⟩ := hnone
      rw [map_getD_of_isNone hall, hfst]
      exact .pure rfl
    · apply (ensures_opened_apply (hmeans.fits.later hs₂) (ps.map fun p => p.2.getD p.1)).bind
      intro u s₃ _ hu
      exact .pure (hu e)

theorem ensures_opened_replaceAll {reclose : Variable → Term → Engine Term}
    (hre : Recloses True reclose) (henc : Encloses reclose) {v : Variable} {value : Term} :
    ∀ (ts : List Term) {Γ : Scope} {s : Store} {e₀ e : Places} {σ : Place → Skeleton},
      Insertable Γ s value → FitsAll (Γ.see v) s ts →
      (∀ w, occursAny w ts = true → Lands e₀ e v value σ w) →
      Ensures (replaceAll R reclose ts v value) s fun ps _ => ps.map Prod.fst = ts ∧
        openedAll e (ps.map fun p => p.2.getD p.1) = Skeleton.fillAll σ (openedAll e₀ ts)
  | [], _, _, _, _, _, _, _, _ => by
    unfold replaceAll
    exact .pure ⟨rfl, rfl⟩
  | t :: ts, Γ, s, e₀, e, σ, hv, hts, hσ => by
    unfold replaceAll
    apply (ensures_opened_replace hre henc t hv hts.1 fun w hw =>
      hσ w (by simp [occursAny, hw])).bind
    intro o s₁ hs₁ ho
    apply (ensures_opened_replaceAll hre henc ts (hv.later hs₁) (hts.2.later hs₁) fun w hw =>
      hσ w (by simp [occursAny, hw])).bind
    rintro ps s₂ hs₂ ⟨hfst, hps⟩
    refine .pure ⟨?_, ?_⟩
    · rw [List.map_cons, hfst]
    · rw [List.map_cons, openedAll, openedAll, Skeleton.fillAll, ho, hps]

end

/-! ### Closing a term over a variable -/

/-- A body closed over a new variable, with the lambdas in it closed by any means. -/
private theorem ensures_opened_closed {reclose : Variable → Term → Engine Term}
    (hre : Recloses True reclose) (henc : Encloses reclose) {b : Term} (hΓ : Γ.Minted s)
    (hb : b.Fits (Γ.see v) s) :
    Ensures (do
      let w ← Engine.freshVariable v.name
      return (w, (← replace R reclose b v (var w)).getD b)) s fun p _ =>
        ∀ e, (lam p.1 p.2).opened e = .lam (b.opened (e.bind v)) := by
  apply (Engine.ensures_freshVariable v.name s).bind
  intro w s₁ hs₁ ⟨hfresh, hw⟩
  have value : Insertable (Γ.bind w) s₁ (var w) := by
    refine ⟨(hΓ.later hs₁).bind hw, Set.mem_insert w _, ?_⟩
    intro x hx
    rw [occurs, decide_eq_true_iff] at hx
    exact hx ▸ Set.mem_insert w _
  have fits : b.Fits ((Γ.bind w).see v) s₁ :=
    ((hb.bind_fresh hfresh).mono (Γ.see_bind_below v w)).later hs₁
  have renamed (e : Places) (x : Variable) (hx : b.occurs x = true) :
      Lands (e.bind v) (e.bind w) v (var w) .var x := by
    unfold Lands
    by_cases hxv : x = v
    · rw [hxv, if_pos rfl, opened, Places.bind_self, Places.bind_self]
    · have old : x ≠ w := by
        rintro rfl
        exact hfresh (hΓ.visible x ((hb.visible hx).resolve_left hxv))
      rw [if_neg hxv, Places.bind_of_ne hxv, Places.bind_of_ne old]
  have replaced : Ensures (replace R reclose b v (var w)) s₁ fun o _ =>
      ∀ e : Places, (o.getD b).opened (e.bind w) = b.opened (e.bind v) := by
    refine ⟨fun o s₂ ho => ⟨?_, fun e => ?_⟩, ?_⟩
    · exact (ensures_opened_replace hre henc b value fits (renamed .free) o s₂ ho).1
    · rw [(ensures_opened_replace hre henc b value fits (renamed e) o s₂ ho).2]
      exact fill_opened fun _ _ => rfl
    · exact (ensures_opened_replace hre henc b value fits (renamed .free)).error
  apply replaced.bind
  intro o s₂ _ ho
  refine .pure fun e => ?_
  rw [opened, ho]

private theorem ensures_opened_closeWithin (depth : Nat) (hΓ : Γ.Minted s) {b : Term}
    (hb : b.Fits (Γ.see v) s) :
    Ensures (closeWithin R depth v b) s fun p _ =>
      ∀ e, (lam p.1 p.2).opened e = .lam (b.opened (e.bind v)) := by
  induction depth generalizing Γ s v b with
  | zero =>
    unfold closeWithin
    split
    · exact .throw
    · exact ensures_opened_closed (fun _ _ _ _ _ _ => .throw) (fun _ _ _ _ _ _ => .throw) hΓ hb
    · next h _ => cases h
  | succ depth ih =>
    unfold closeWithin
    split
    · exact .throw
    · next h _ => cases h
    · next h _ =>
      cases h
      refine ensures_opened_closed ?_ ?_ hΓ hb
      · intro Δ s₁ w b hΔ hb
        apply (ensures_closeWithin R depth hΔ hb).bind
        intro p s₂ _ hp
        exact .pure hp
      · intro Δ s₁ w b hΔ hb
        apply (ih hΔ hb).bind
        intro p s₂ _ hp
        exact .pure hp

/-- The abstraction of a term over a variable is a lambda with the term below it. -/
theorem ensures_opened_abstract (hΓ : Γ.Minted s) {b : Term} (hb : b.Fits (Γ.see v) s) :
    Ensures (abstract R v b) s fun u _ => ∀ e, u.opened e = .lam (b.opened (e.bind v)) := by
  unfold abstract close
  apply (ensures_opened_closeWithin _ hΓ hb).bind
  intro p s₁ _ hp
  exact .pure hp

theorem encloses_abstract : Encloses (abstract R) :=
  fun _ _ _ _ hΓ hb => ensures_opened_abstract hΓ hb

/-- The body of a lambda with an argument in place of its variable. -/
theorem ensures_opened_instantiate (hΓ : Γ.Sealed s) {b a : Term} (hb : (lam v b).Fits Γ s)
    (ha : a.Fits Γ s) (e : Places) :
    Ensures (instantiate R v b a) s fun u _ =>
      u.opened e = (b.opened (e.bind v)).fill (Skeleton.passing (a.opened e)) := by
  have value : Insertable Γ s a :=
    ⟨hΓ.minted, ha, fun w hw => hΓ.visible w (ha.visible hw)⟩
  have fits : b.Fits (Γ.see v) s := hb.2.2.mono ((Scope.Below.refl Γ).bind_see v)
  have passed (w : Variable) : Lands (e.bind v) e v a (Skeleton.passing (a.opened e)) w := by
    unfold Lands
    by_cases hw : w = v
    · rw [hw, Places.bind_self, if_pos rfl, Skeleton.passing]
    · rw [Places.bind_of_ne hw, if_neg hw]
      cases e w <;> rfl
  exact (ensures_opened_replace (recloses_abstract R) encloses_abstract b value fits
    fun w _ => passed w).map

/-! ### Expansion -/

mutual

/-- A term and its expansion are the same with all names opened. -/
theorem ensures_opened_expand (R : Rules) : ∀ (t : Term) {Γ : Scope} {s : Store}, Γ.Minted s →
    t.Fits Γ s → Ensures (expand R t) s fun u _ => ∀ e, u.opened e = t.opened e
  | named info d, Γ, s, hΓ, ht => by
    unfold expand
    exact ensures_opened_expand R d hΓ ht.2
  | lam v b, Γ, s, hΓ, ht => by
    have scope := hΓ.bind ht.2.1
    have body := ensures_expand (η := True) R b scope ht.2.2
    unfold expand
    apply ((ensures_opened_expand R b scope ht.2.2).and body).bind
    rintro b' s₁ hs₁ ⟨hb, hmeans⟩
    have fits : b'.Fits (Γ.see v) s₁ := hmeans.fits.mono ((Scope.Below.refl Γ).bind_see v)
    apply (ensures_opened_abstract (hΓ.later hs₁) fits).imp
    intro u s₂ _ hu e
    rw [hu, hb, opened]
  | app n h as, Γ, s, hΓ, ht => by
    have head := ensures_expand (η := True) R h hΓ ht.2.1
    unfold expand
    apply ((ensures_opened_expand R h hΓ ht.2.1).and head).bind
    rintro h' s₁ hs₁ ⟨hh, hmeans⟩
    apply (ensures_opened_expandAll R as (hΓ.later hs₁) (ht.2.2.later hs₁)).bind
    intro as' s₂ hs₂ has
    apply (ensures_opened_apply (hmeans.fits.later hs₂) as').imp
    intro u s₃ _ hu e
    rw [hu, hh, has, opened]
  | var v, Γ, s, _, _ => by
    unfold expand
    exact .pure fun _ => rfl
  | native c, Γ, s, _, _ => by
    unfold expand
    exact .pure fun _ => rfl
  | foreign x, Γ, s, _, _ => by
    unfold expand
    exact .pure fun _ => rfl

theorem ensures_opened_expandAll (R : Rules) : ∀ (ts : List Term) {Γ : Scope} {s : Store},
    Γ.Minted s → FitsAll Γ s ts →
      Ensures (expand.expandAll R ts) s fun us _ => ∀ e, openedAll e us = openedAll e ts
  | [], Γ, s, _, _ => by
    unfold expand.expandAll
    exact .pure fun _ => rfl
  | t :: ts, Γ, s, hΓ, hts => by
    unfold expand.expandAll
    apply (ensures_opened_expand R t hΓ hts.1).bind
    intro u s₁ hs₁ hu
    apply (ensures_opened_expandAll R ts (hΓ.later hs₁) (hts.2.later hs₁)).bind
    intro us s₂ _ hus
    refine .pure fun e => ?_
    rw [openedAll, openedAll, hu, hus]

end

end Term

end Combinatory
