import Combinatory.Proofs.Core.Eliminations

/-!
# Compilation takes eliminations in order

Within any budget, compilation takes the next eliminations of a core, one after another, until the
budget is spent or none is left (`yields_compile_follows`). When something is left of the budget,
what was compiled is a combination of basic combinators, so the rules for the body of a lambda are
those for combinations; and when nothing is left, every lambda is closed again as it was.
-/

namespace Combinatory

open Engine (Gives Yields)

namespace Core

/-- Whether all combinators are of a kind. -/
def Uses (ok : Native → Prop) : Core → Prop
  | var _ => True
  | native c => ok c
  | lam b => b.Uses ok
  | app f a => f.Uses ok ∧ a.Uses ok

variable {ok : Native → Prop}

theorem uses_move {r : Place → Place} {x : Core} : (x.move r).Uses ok ↔ x.Uses ok := by
  induction x generalizing r with
  | var p => simp [move, Uses]
  | native c => simp [move, Uses]
  | lam b ih => simp [move, Uses, ih]
  | app f a ihf iha => simp [move, Uses, ihf, iha]

theorem uses_apps {x : Core} {ys : List Core} :
    (x.apps ys).Uses ok ↔ x.Uses ok ∧ ∀ y ∈ ys, y.Uses ok := by
  induction ys generalizing x with
  | nil => simp
  | cons y ys ih => simp [ih, Uses, and_assoc]

end Core

/-- The core of a combination uses its combinators. -/
theorem Combination.uses_core {ok : Native → Prop} {c : Combination} {e : Places} :
    (c.core e).Uses ok ↔ c.Uses ok := by
  induction c with
  | var v => simp [core, Core.Uses, Uses]
  | native c => simp [core, Core.Uses, Uses]
  | app f a ihf iha => simp [core, Core.Uses, Uses, ihf, iha]

/-- No combinators are left in the form of a combinator. -/
theorem Native.uses_form {ok : Native → Prop} {c : Native} {x : Core} (hx : c.form? = some x) :
    x.Uses ok := by
  obtain ⟨r, hr, rfl⟩ := Option.map_eq_some_iff.mp hx
  have lams (n : Nat) (y : Core) : (Core.lams n y).Uses ok ↔ y.Uses ok := by
    induction n with
    | zero => rfl
    | succ n ih => exact ih
  rw [lams, Combination.uses_core]
  exact Template.uses_fill_vars hr c.length_places

namespace Core

variable {ok : Native → Prop} {x y : Core} {k : Nat}

/-- Nothing but basic combinators is brought in when a variable is eliminated. -/
theorem uses_eliminated (base : ∀ c : Native, c.isBase = true → ok c) (hx : x.Uses ok) :
    x.eliminated.Uses ok := by
  cases x with
  | var p =>
    rw [eliminated]
    split
    · exact base .I rfl
    · exact ⟨base .K rfl, trivial⟩
  | native c => exact ⟨base .K rfl, hx⟩
  | lam b => exact hx
  | app f a =>
    rw [eliminated]
    split
    · exact ⟨base .K rfl, uses_move.mpr hx⟩
    · split
      · exact uses_move.mpr hx.1
      · exact ⟨⟨base .S rfl, hx.1⟩, hx.2⟩

/-- So is nothing else by an elimination. -/
theorem uses_next (base : ∀ c : Native, c.isBase = true → ok c) (hx : x.Uses ok)
    (h : x.next = some y) : y.Uses ok := by
  induction x generalizing y with
  | var p => cases h
  | native c =>
    rw [next] at h
    split at h
    · cases h
    · exact Native.uses_form h
  | lam b ih =>
    rw [next] at h
    split at h
    · next b' hb =>
      cases h
      have body : b'.Uses ok := ih hx hb
      exact body
    · cases h
      exact uses_eliminated base hx
  | app f a ihf iha =>
    rw [next] at h
    split at h
    · next f' hf =>
      cases h
      exact ⟨ihf hx.1 hf, hx.2⟩
    · obtain ⟨a', ha, rfl⟩ := Option.map_eq_some_iff.mp h
      exact ⟨hx.1, iha hx.2 ha⟩

theorem Takes.uses (base : ∀ c : Native, c.isBase = true → ok c) (h : Takes k x y)
    (hx : x.Uses ok) : y.Uses ok := by
  induction k generalizing x with
  | zero =>
    rw [← show x = y from h]
    exact hx
  | succ k ih =>
    obtain ⟨z, hz, h⟩ := h
    exact ih h (uses_next base hx hz)

end Core

namespace Term

variable {R : Rules} {limits : Budget} {expanding : List Native} {s : Store} {v : Variable}
  {U : Prop} {V : Set Variable}

/-- Which combinators a core uses does not depend on the places of the variables. -/
theorem uses_core {ok : Native → Prop} {t : Term} (e : Places) :
    (t.core e).Uses ok ↔ (t.core .free).Uses ok := by
  have moved : t.core e = (t.core .free).move e.settle := by
    rw [← core_comp]
    rfl
  rw [moved, Core.uses_move]

mutual

/-- A term of a scope uses combinators that stand for lambda terms. -/
theorem Fits.uses_core : ∀ {t : Term} {Γ : Scope} {e : Places}, t.Fits Γ s →
    (t.core e).Uses fun c => c.isPure = true
  | var _, _, _, _ => trivial
  | native _, _, _, ht => ht
  | foreign _, _, _, ht => ht.elim
  | named _ d, _, _, ht => Fits.uses_core (t := d) ht.2
  | lam _ b, _, _, ht => Fits.uses_core (t := b) ht.2.2
  | app _ h as, _, _, ht => by
    rw [core, Core.uses_apps]
    exact ⟨Fits.uses_core ht.2.1, FitsAll.uses_cores ht.2.2⟩

theorem FitsAll.uses_cores : ∀ {ts : List Term} {Γ : Scope} {e : Places}, FitsAll Γ s ts →
    ∀ x ∈ cores e ts, x.Uses fun c => c.isPure = true
  | [], _, _, _ => List.forall_mem_nil _
  | _ :: _, _, _, hts =>
    List.forall_mem_cons.mpr ⟨Fits.uses_core hts.1, FitsAll.uses_cores hts.2⟩

end

mutual

/-- A combination of minted variables is regular. -/
theorem IsCombination.regular : ∀ {t : Term}, t.IsCombination →
    (∀ v, t.occurs v = true → s.Minted v) → t.Regular U V s
  | var v, _, h => h v (by simp [occurs])
  | native c, hc, _ => regular_native (by cases c <;> first | rfl | cases hc)
  | app n hd as, ⟨hh, hne, has⟩, h => by
    refine ⟨⟨hne, ?_, ?_⟩, IsCombination.regular hh.isCombination fun v hv =>
      h v (by simp [occurs, hv]), AreCombinations.regularAll has fun v hv =>
      h v (by simp [occurs, hv])⟩
    · rintro m g bs rfl
      exact hh
    · rintro rfl
      cases hh
  | foreign _, ht, _ => ht.elim
  | named _ _, ht, _ => ht.elim
  | lam _ _, ht, _ => ht.elim

theorem AreCombinations.regularAll : ∀ {ts : List Term}, AreCombinations ts →
    (∀ v, occursAny v ts = true → s.Minted v) → RegularAll U V s ts
  | [], _, _ => trivial
  | _ :: _, ⟨ht, hts⟩, h =>
    ⟨IsCombination.regular ht fun v hv => h v (by simp [occursAny, hv]),
      AreCombinations.regularAll hts fun v hv => h v (by simp [occursAny, hv])⟩

end

/-- What forms a combination of minted variables is regular. -/
theorem Forms.regular {t : Term} {c : Combination} (ht : t.Forms c)
    (hm : ∀ v, c.Mentions v → s.Minted v) : t.Regular U V s := by
  refine ht.isCombination.regular fun v hv => hm v ?_
  rwa [occurs_iff_mentions ht.isCombination, ht.combination] at hv

/-! ### The rules -/

/-- Whether a compiled term follows the eliminations of a core, from a budget on. -/
structure Follows {budget : Nat} (U : Prop) (V : Set Variable) (start : Nat) (x : Places → Core)
    (o : Compiled Term budget) (s : Store) : Prop where
  left_le : o.left ≤ start
  regular : o.value.Regular U V s
  takes : ∀ e, Core.Takes (start - o.left) (x e) (o.value.core e)
  done : o.left ≠ 0 → o.value.IsCombination ∧ IsBasic o.value.combination

namespace Follows

variable {budget start : Nat} {x : Places → Core} {o : Compiled Term budget}

theorem later {s' : Store} (h : Follows U V start x o s) (hs : s ≤ s') :
    Follows U V start x o s' :=
  ⟨h.left_le, h.regular.later hs, h.takes, h.done⟩

/-- When something is left, there is nothing to eliminate. -/
theorem next_eq_none (h : Follows U V start x o s) (hleft : o.left ≠ 0) (e : Places) :
    (o.value.core e).next = none := by
  obtain ⟨hcomb, hbasic⟩ := h.done hleft
  rw [hcomb.core_eq]
  exact Combination.next_core hbasic e

/-- Eliminations may have been taken before. -/
theorem after {j : Nat} {y : Places → Core} (h : Follows U V start x o s)
    (hj : ∀ e, Core.Takes j (y e) (x e)) : Follows U V (j + start) y o s := by
  refine ⟨Nat.le_add_left_of_le h.left_le, h.regular, fun e => ?_, h.done⟩
  have together := (hj e).trans (h.takes e)
  rwa [← Nat.add_sub_assoc h.left_le] at together

end Follows

/-- A combination of basic combinators has nothing to eliminate. -/
theorem Leaves.follows {budget left : Nat} {o : Compiled Term budget} {c : Combination}
    (h : Leaves c left o) (hc : IsBasic c) (hm : ∀ v, c.Mentions v → s.Minted v) :
    Follows U V left (fun e => c.core e) o s := by
  refine ⟨h.left.le, h.forms.regular hm, fun e => ?_, fun _ => ⟨h.forms.isCombination, ?_⟩⟩
  · rw [h.left, Nat.sub_self, h.forms.core]
    exact .refl _
  · rwa [h.forms.combination]

/-- Whether every combinator has an expansion in which it is not met again: either none is being
expanded, and all stand for lambda terms, or there are none left to expand. -/
def Expandable (expanding : List Native) (t : Term) : Prop :=
  (expanding = [] ∧ (t.core .free).Uses fun c => c.isPure = true) ∨
    (t.core .free).Uses fun c => c.isBase = true

/-- Whether compilation within a budget follows the eliminations of a core. -/
def FollowsWithin (U : Prop) (R : Rules) (limits : Budget) (budget : Nat) : Prop :=
  ∀ (expanding : List Native) (t : Term) (V : Set Variable) (s : Store), t.Regular U V s →
    t.Expandable expanding →
    Yields (compile R limits expanding budget t) s (Follows U V budget fun e => t.core e)

/-- Whether a lambda has the core of one of some variable over a combination. -/
structure IsLambdaOf (U : Prop) (V : Set Variable) (v : Variable) (c : Combination) (w : Variable)
    (b : Term) (s : Store) : Prop where
  regular : (lam w b).Regular U V s
  core : ∀ e : Places, (lam w b).core e = .lam (c.core (e.bind v))

/-- A combination is closed over a variable. -/
private theorem Forms.gives_close {t : Term} {c : Combination} (ht : t.Forms c)
    (hm : ∀ w, c.Mentions w → s.Minted w) :
    Gives (close R v t) s fun p s' => IsLambdaOf U V v c p.1 p.2 s' := by
  have body : t.Regular U (insert v V) s := ht.regular hm
  apply (Term.gives_close body).imp
  intro p s' hs hp
  refine ⟨hp.regular, fun e => ?_⟩
  rw [hp.core (body.later hs), ht.core]

/-- The compilation of a lambda over a combination of basic combinators. -/
private theorem FollowsWithin.eliminate {budget : Nat} (h : FollowsWithin U R limits budget)
    {c : Combination} {w : Variable} {b : Term} (hb : IsLambdaOf U V v c w b s) (hc : IsBasic c) :
    Yields (eliminate R limits expanding budget w b) s
      (Follows U V budget fun e => .lam (c.core (e.bind v))) := by
  have basic : (lam w b).Expandable expanding := by
    refine .inr ?_
    rw [hb.core, Core.Uses, Combination.uses_core]
    exact hc
  have follows := h expanding _ V s hb.regular basic
  rw [compile_lam] at follows
  simpa only [hb.core] using follows

/-- Two compiled halves are put together by `S`. -/
private theorem yields_sharing {budget left rest : Nat} {x y : Places → Core}
    {f : Compiled Term left} {a : Compiled Term f.left} (hle : a.left ≤ budget)
    (hf : Follows U V rest x f s) (ha : Follows U V f.left y a s) :
    Yields (do
      return (⟨← apply R (native .S) [f.value, a.value], a.left, hle⟩ : Compiled Term budget)) s
      (Follows U V rest fun e => .app (.app (.native .S) (x e)) (y e)) := by
  have args : RegularAll U V s [f.value, a.value] := ⟨hf.regular, ha.regular, trivial⟩
  have made : Gives (apply R (native .S) [f.value, a.value]) s fun u _ =>
      ∃ n, u = app n (native .S) [f.value, a.value] := by
    rw [apply_eq_extend R _ args.firstLiteral_eq_none, extend_native R rfl]
    exact Engine.gives_node _ _ s
  apply made.yields.bind
  rintro _ s₁ hs ⟨n, rfl⟩
  refine .pure ⟨Nat.le_trans ha.left_le hf.left_le, ⟨⟨List.cons_ne_nil _ _, nofun, nofun⟩,
    regular_native rfl, args.later hs⟩, fun e => ?_, fun hleft => ?_⟩
  · have split : rest - a.left = (rest - f.left) + (f.left - a.left) := by
      have := ha.left_le
      have := hf.left_le
      omega
    dsimp only
    rw [split, core_app]
    refine (((hf.takes e).app_right fun _ => rfl).app_left (y e)).trans ?_
    refine (ha.takes e).app_right fun hspent => ?_
    simp [Core.next, hf.next_eq_none (by omega) e, Native.isBase]
  · dsimp only at hleft
    obtain ⟨hfcomb, hfbasic⟩ := hf.done (by have := ha.left_le; omega)
    obtain ⟨hacomb, habasic⟩ := ha.done hleft
    exact ⟨⟨rfl, List.cons_ne_nil _ _, hfcomb, hacomb, trivial⟩, ⟨rfl, hfbasic⟩, habasic⟩

/-- A variable shared by both halves of an application is eliminated from the front first. -/
private theorem yields_follow_shared {budget rest : Nat} (hle : rest ≤ budget)
    (ih : ∀ l ≤ rest, FollowsWithin U R limits l) {front last : Term} {f a : Combination}
    (hf : front.Forms f) (ha : last.Forms a) (hc : IsBasic (.app f a))
    (hm : ∀ w, (Combination.app f a).Mentions w → s.Minted w) :
    Yields (do
      let (v₁, front) ← close R v front
      let front ← eliminate R limits expanding rest v₁ front
      let (v₂, last) ← close R v last
      let last ← eliminate R limits expanding front.left v₂ last
      return (⟨← apply R (native .S) [front.value, last.value], last.left,
        Nat.le_trans last.left_le (Nat.le_trans front.left_le hle)⟩ : Compiled Term budget)) s
      (Follows U V rest fun e =>
        .app (.app (.native .S) (.lam (f.core (e.bind v)))) (.lam (a.core (e.bind v)))) := by
  apply (hf.gives_close fun w hw => hm w (.inl hw)).yields.bind
  rintro ⟨v₁, front₁⟩ s₁ hs₁ hfront
  apply ((ih rest (Nat.le_refl rest)).eliminate hfront hc.1).bind
  intro f' s₂ hs₂ hf'
  have minted : ∀ w, a.Mentions w → s₂.Minted w := fun w hw =>
    (hm w (.inr hw)).mono (Store.le_trans hs₁ hs₂)
  apply (ha.gives_close minted).yields.bind
  rintro ⟨v₂, last₁⟩ s₃ hs₃ hlast
  apply ((ih f'.left hf'.left_le).eliminate hlast hc.2).bind
  intro a' s₄ hs₄ ha'
  exact yields_sharing _ (hf'.later (Store.le_trans hs₃ hs₄)) ha'

/-- A combination without the variable becomes a constant. -/
private theorem yields_follow_constant {budget rest : Nat} (hle : rest ≤ budget) {t : Term}
    {c : Combination} (ht : t.Forms c) (hc : IsBasic c) (hm : ∀ w, c.Mentions w → s.Minted w)
    (hv : ¬ c.Mentions v) :
    Yields (do
      return (⟨← apply R (native .K) [t], rest, hle⟩ : Compiled Term budget)) s
      (Follows U V rest fun e => (c.core (e.bind v)).eliminated) := by
  apply (yields_constant hle ht s).imp
  intro d s₁ hs hd
  simp only [Combination.eliminated_core_constant hv]
  exact hd.follows ⟨rfl, hc⟩ fun w hw => (hm w (hw.resolve_left id)).mono hs

/-- The elimination of a variable follows those of the body, if compilation within less follows the
eliminations of anything. -/
private theorem yields_follow_eliminate {budget : Nat}
    (ih : ∀ l < budget, FollowsWithin U R limits l) {body : Term} {x : Places → Core}
    (hbody : Yields (compile R limits expanding budget body) s
      (Follows U (insert v V) budget x)) :
    Yields (eliminate R limits expanding budget v body) s
      (Follows U V budget fun e => .lam (x (e.bind v))) := by
  unfold eliminate
  apply hbody.bind
  intro o s₁ _ ho
  split
  · next hleft =>
    -- the budget is spent: the lambda is left in place
    apply (gives_abstract ho.regular).yields.bind
    intro u s₂ hs hu
    refine .pure ⟨Nat.zero_le _, hu.regular, fun e => ?_, fun h => absurd rfl h⟩
    have taken := ho.takes (e.bind v)
    rw [hleft] at taken
    rw [hu.core (ho.regular.later hs)]
    exact taken.lam
  · next rest hleft =>
    obtain ⟨hcomb, hbasic⟩ := ho.done (hleft ▸ Nat.succ_ne_zero rest)
    have hrest : rest < budget := by
      have := o.left_le
      omega
    have hm : ∀ w, o.value.combination.Mentions w → s₁.Minted w := fun w hw =>
      ho.regular.minted ((occurs_iff_mentions hcomb).mpr hw)
    have taken (e : Places) : Core.Takes (budget - rest) (.lam (x (e.bind v)))
        (o.value.combination.core (e.bind v)).eliminated := by
      have cost : budget - rest = (budget - o.left) + 1 := by omega
      rw [cost]
      refine (ho.takes (e.bind v)).lam.trans (.one ?_)
      rw [Core.next, hcomb.core_eq, Combination.next_core hbasic]
    suffices goes : Yields _ s₁
        (Follows U V rest fun e => (o.value.combination.core (e.bind v)).eliminated) by
      refine goes.imp fun d s' _ hd => ?_
      have := hd.after taken
      rwa [Nat.sub_add_cancel hrest.le] at this
    have forms : o.value.Forms o.value.combination := .self hcomb
    generalize o.value.combination = c at hbasic hm forms ⊢
    dsimp only
    split
    · next w hw =>
      rw [hw] at forms ⊢
      obtain rfl : Combination.var w = c := forms.combination
      split
      · next hwv =>
        subst hwv
        have identity : Leaves (.native .I) rest
            (⟨native .I, rest, hrest.le⟩ : Compiled Term budget) := ⟨.self rfl, rfl⟩
        refine .pure ?_
        simpa [Combination.core, Core.eliminated] using identity.follows rfl fun _ hw => hw.elim
      · next hwv => exact yields_follow_constant hrest.le forms hbasic hm (Ne.symm hwv)
    · next n hd as happ =>
      rw [happ] at forms ⊢
      obtain ⟨f, a, rfl⟩ := forms.exists_app
      rw [forms.mentions_eq v, pure_bind]
      by_cases hmem : (Combination.app f a).Mentions v
      · simp only [hmem, decide_true, Bool.not_true, Bool.false_eq_true, if_false]
        apply (yields_split forms s₁).bind
        rintro ⟨front, last⟩ s₂ hs₂ ⟨hfront, hlast⟩
        dsimp only at hfront hlast ⊢
        rw [endsIn_eq hfront hlast v, pure_bind]
        by_cases heta : a = .var v ∧ ¬ f.Mentions v
        · rw [decide_eq_true heta, if_pos rfl]
          obtain ⟨rfl, hv⟩ := heta
          apply (hfront.compile hbasic.1 s₂).bind
          intro d s₃ hs₃ hd
          refine .pure ?_
          simp only [Combination.eliminated_core_eta hv]
          exact Leaves.follows ⟨hd.forms, hd.left⟩ hbasic.1 fun w hw =>
            (hm w (.inl hw)).mono (Store.le_trans hs₂ hs₃)
        · rw [decide_eq_false heta, if_neg Bool.false_ne_true]
          simp only [Combination.eliminated_core_app hmem heta]
          exact yields_follow_shared hrest.le (fun l hl => ih l (by omega)) hfront hlast hbasic
            fun w hw => (hm w hw).mono hs₂
      · simp only [hmem, decide_false, Bool.not_false, if_true]
        exact yields_follow_constant hrest.le forms hbasic hm hmem
    · next t hvar happ =>
      obtain ⟨d, rfl⟩ := forms.exists_native hvar happ
      rw [forms.mentions_eq v, pure_bind]
      exact yields_follow_constant hrest.le forms hbasic hm id

/-! ### Expansions -/

/-- A tower of minted variables is regular. -/
theorem IsTower.regular {n : Nat} {t : Term} {Γ : Scope} (ht : t.IsTower n) (hΓ : Γ.Minted s)
    (hfits : t.Fits Γ s) : t.Regular U V s := by
  induction n generalizing t Γ V with
  | zero => exact IsCombination.regular ht fun v hv => hΓ.visible v (hfits.visible hv)
  | succ n ih =>
    obtain ⟨v, b, rfl, hb⟩ := ht.exists_lam
    exact ⟨hfits.2.1, ih hb (hΓ.bind hfits.2.1) hfits.2.2⟩

/-- The core of a tower is read off from what it gives on distinct new variables, under whatever
names its own variables have. -/
theorem IsTower.core_eq {n : Nat} {t : Term} (ht : t.IsTower n) (π : Variable → Variable)
    {vs : List Variable} (hlen : vs.length = n) (hvs : vs.Nodup) {e : Places} (e' : Places)
    (he : ∀ x, t.occurs x = true → e' (π x) = e x)
    (hfresh : ∀ w ∈ vs, ∀ x, t.occurs x = true → π x ≠ w) :
    t.core e = .lams n ((t.applied (Combination.var ∘ π) (vs.map .var)).core (e'.bindAll vs)) := by
  induction n generalizing t π vs e e' with
  | zero =>
    obtain rfl := List.length_eq_zero_iff.mp hlen
    have given : t.applied (Combination.var ∘ π) [] = t.combination.rename π :=
      IsCombination.applied_eq ht _ _
    rw [List.map_nil, given, Combination.core_rename, IsCombination.core_eq ht, Core.lams]
    exact Combination.core_congr fun v hv => (he v ((occurs_iff_mentions ht).mpr hv)).symm
  | succ n ih =>
    obtain ⟨v, b, rfl, hb⟩ := ht.exists_lam
    obtain ⟨w, ws, rfl⟩ := List.exists_cons_of_length_eq_add_one hlen
    obtain ⟨hw, hws⟩ := List.nodup_cons.mp hvs
    have given : (lam v b).applied (Combination.var ∘ π) ((w :: ws).map .var) =
        b.applied (Combination.var ∘ Function.update π v w) (ws.map .var) := by
      rw [List.map_cons, applied, Function.comp_update]
    rw [given, core_lam, Core.lams]
    refine congrArg Core.lam (ih hb _ (Nat.succ.inj hlen) hws _ ?_ ?_)
    · intro x hx
      by_cases hxv : x = v
      · simp [hxv]
      · have outer : (lam v b).occurs x = true := by simp [occurs, hx, Ne.symm hxv]
        rw [Function.update_of_ne hxv, Places.bind_of_ne hxv,
          Places.bind_of_ne (hfresh w List.mem_cons_self x outer), he x outer]
    · intro u hu x hx
      by_cases hxv : x = v
      · rw [hxv, Function.update_self]
        exact fun heq => hw (heq ▸ hu)
      · rw [Function.update_of_ne hxv]
        exact hfresh u (List.mem_cons_of_mem w hu) x (by simp [occurs, hx, Ne.symm hxv])

/-- What fills the template of a combinator has the core that it stands for. -/
private theorem Fills.core {c : Native} {r : Template} {u : Term} (h : Fills r c.arity s u)
    (hr : c.template = some r) (e : Places) : c.form? = some (u.core e) := by
  have closed : ∀ x, u.occurs x = true → False := fun x hx => h.fits.visible hx
  have given : u.applied (Combination.var ∘ id) (c.places.map .var) =
      r.fill (c.places.map .var) :=
    h.applied _ _ (by rw [List.length_map, Native.length_places])
  rw [Native.form?, hr, Option.map_some, h.tower.core_eq id c.length_places c.nodup_places
    .free (fun x hx => (closed x hx).elim) (fun _ _ x hx => (closed x hx).elim), given]

/-- A combinator that is not basic gives way to its form. -/
private theorem yields_follow_native (hl : limits.Ample) {budget : Nat}
    (ih : ∀ l < budget, FollowsWithin U R limits l) {c : Native}
    (hexp : (expanding = [] ∧ c.isPure = true) ∨ c.isBase = true) :
    Yields (compile R limits expanding budget (native c)) s
      (Follows U V budget fun _ => .native c) := by
  unfold compile
  cases hb : c.isBase with
  | true =>
    have comb : (native c).IsCombination := by cases c <;> first | rfl | cases hb
    have base : Leaves (.native c) budget (Compiled.free (native c)) := ⟨.self comb, rfl⟩
    rw [Bool.true_or, if_pos rfl]
    exact .pure (base.follows hb nofun)
  | false =>
    obtain ⟨rfl, hc⟩ := hexp.resolve_right (by simp [hb])
    have expanded : (false || List.contains [] c) = false := rfl
    rw [expanded, if_neg Bool.false_ne_true]
    cases budget with
    | zero =>
      exact .pure ⟨Nat.le_refl 0, regular_native hc, fun _ => .refl _, fun h => (h rfl).elim⟩
    | succ left =>
      obtain ⟨r, hr⟩ := Native.exists_template_of_isPure hc
      apply (yields_canonical hl hc hr s).bind
      rintro _ s₁ - ⟨u, rfl, hu⟩
      have empty : (Scope.ofFree ∅).Minted s₁ := ⟨fun _ hv => hv.elim, fun _ hv => hv.elim⟩
      have form (e : Places) : c.form? = some (u.core e) := hu.core hr e
      apply (ih left (Nat.lt_succ_self left) [c] u V s₁ (hu.tower.regular empty hu.fits)
        (.inr (Native.uses_form (form .free)))).bind
      intro o s₂ _ ho
      refine .pure ?_
      have follows : Follows U V (1 + left) (fun _ => .native c) o s₂ :=
        ho.after fun e => .one (by rw [Core.next, hb, ← form e]; rfl)
      rw [Nat.add_comm] at follows
      exact ⟨follows.left_le, follows.regular, follows.takes, follows.done⟩

/-! ### Terms -/

/-- Whether compiled terms follow the eliminations of some cores, from a budget on. -/
structure FollowsAll {budget : Nat} (U : Prop) (V : Set Variable) (start : Nat)
    (xs : Places → List Core) (o : Compiled (List Term) budget) (s : Store) : Prop where
  left_le : o.left ≤ start
  regular : RegularAll U V s o.value
  takes : ∀ e, Core.TakesAll (start - o.left) (xs e) (o.value.map (core e))
  done : o.left ≠ 0 → AreCombinations o.value ∧ ∀ c ∈ combinations o.value, IsBasic c

/-- A head and its arguments, all compiled, are applied again. -/
private theorem Follows.yields_apply {budget : Nat} {x : Places → Core} {xs : Places → List Core}
    {h' : Compiled Term budget} {as' : Compiled (List Term) h'.left} (hbudget : budget ≠ 0)
    (hh : Follows U V budget x h' s) (has : FollowsAll U V h'.left xs as' s) :
    Yields (do return (⟨← apply R h'.value as'.value, as'.left,
      Nat.le_trans as'.left_le h'.left_le⟩ : Compiled Term budget)) s
      (Follows U V budget fun e => (x e).apps (xs e)) := by
  have hsucc : h'.value ≠ native .successor := by
    intro heq
    by_cases hleft : h'.left = 0
    · have taken := hh.takes .free
      rw [hleft, heq] at taken
      exact taken.ne_successor hbudget rfl
    · have hcomb := (hh.done hleft).1
      rw [heq] at hcomb
      cases hcomb
  have follows {u : Term} {s' : Store} (hreg : u.Regular U V s')
      (hcore : ∀ e, u.core e = (h'.value.core e).apps (as'.value.map (Term.core e)))
      (hdone : as'.left ≠ 0 → u.IsCombination ∧ IsBasic u.combination) :
      Follows U V budget (fun e => (x e).apps (xs e)) (⟨u, as'.left,
        Nat.le_trans as'.left_le h'.left_le⟩ : Compiled Term budget) s' := by
    refine ⟨Nat.le_trans as'.left_le h'.left_le, hreg, fun e => ?_, hdone⟩
    have split : budget - as'.left = (budget - h'.left) + (h'.left - as'.left) := by
      have := as'.left_le
      have := h'.left_le
      omega
    dsimp only
    rw [split, hcore]
    refine ((hh.takes e).apps_left _).trans ((has.takes e).apps fun hspent => ?_)
    exact hh.next_eq_none (by omega) e
  have made := (gives_apply_core (R := R) hh.regular has.regular hsucc).yields
  by_cases hleft : as'.left = 0
  · apply made.bind
    rintro u s₁ - ⟨hreg, hcore⟩
    exact .pure (follows hreg hcore fun h => absurd hleft h)
  · obtain ⟨hcomb, hbasic⟩ := hh.done (by have := as'.left_le; omega)
    obtain ⟨hcombs, hbasics⟩ := has.done hleft
    apply (made.and ((Forms.self hcomb).apply R (forms_all hcombs) s)).bind
    rintro u s₁ - ⟨⟨hreg, hcore⟩, hform⟩
    refine .pure (follows hreg hcore fun _ => ⟨hform.isCombination, ?_⟩)
    rw [hform.combination]
    exact Combination.uses_apps.mpr ⟨hbasic, hbasics⟩

mutual

/-- Compilation within a budget follows the eliminations of a term, if compilation within less
follows those of any. -/
private theorem yields_follow_compile (hl : limits.Ample) {budget : Nat}
    (ih : ∀ l < budget, FollowsWithin U R limits l) : ∀ (t : Term) {V : Set Variable} {s : Store},
      t.Regular U V s → t.Expandable expanding →
      Yields (compile R limits expanding budget t) s (Follows U V budget fun e => t.core e)
  | var v, _, s, ht, _ => by
    have kept : Leaves (.var v) budget (Compiled.free (var v)) := ⟨.self trivial, rfl⟩
    unfold compile
    exact .pure (kept.follows trivial fun w hw => (show w = v from hw) ▸ ht)
  | native c, _, _, _, hexp => yields_follow_native hl ih hexp
  | foreign _, _, _, ht, _ => ht.elim
  | named _ d, _, _, ht, hexp => by
    unfold compile
    exact yields_follow_compile hl ih d ht.2.2 hexp
  | lam v b, _, s, ht, hexp => by
    have below : b.Expandable expanding :=
      hexp.imp (And.imp_right (uses_core _).mp) (uses_core _).mp
    rw [compile_lam]
    exact yields_follow_eliminate ih (yields_follow_compile hl ih b ht.2 below)
  | app n h as, _, s, ht, hexp => by
    have parts : h.Expandable expanding ∧ ∀ a ∈ as, a.Expandable expanding := by
      simp only [Expandable, core_app, Core.uses_apps] at hexp
      rcases hexp with ⟨rfl, hpure⟩ | hbasic
      · exact ⟨.inl ⟨rfl, hpure.1⟩, fun a ha => .inl ⟨rfl, hpure.2 _ (List.mem_map_of_mem ha)⟩⟩
      · exact ⟨.inr hbasic.1, fun a ha => .inr (hbasic.2 _ (List.mem_map_of_mem ha))⟩
    unfold compile
    split
    · next hzero =>
      subst hzero
      exact .pure ⟨Nat.le_refl 0, ht, fun _ => .refl _, fun h => (h rfl).elim⟩
    · next hbudget =>
      apply (yields_follow_compile hl ih h ht.2.1 parts.1).bind
      intro h' s₁ hs₁ hh
      apply (yields_follow_compileAll hl ih as h'.left_le (ht.2.2.later hs₁) parts.2).bind
      intro as' s₂ hs₂ has
      simp only [core_app]
      exact (hh.later hs₂).yields_apply hbudget has

private theorem yields_follow_compileAll (hl : limits.Ample) {budget : Nat}
    (ih : ∀ l < budget, FollowsWithin U R limits l) : ∀ (ts : List Term) {b : Nat}
      {V : Set Variable} {s : Store}, b ≤ budget → RegularAll U V s ts →
      (∀ t ∈ ts, t.Expandable expanding) →
      Yields (compileAll R limits expanding b ts) s (FollowsAll U V b fun e => ts.map (core e))
  | [], b, _, s, _, _, _ => by
    unfold compileAll
    refine .pure ⟨Nat.le_refl b, trivial, fun e => ?_, fun _ => ⟨trivial, nofun⟩⟩
    rw [Compiled.free, Nat.sub_self]
    exact .nil
  | t :: ts, b, V, s, hb, hts, hexp => by
    obtain ⟨hfirst, hrest⟩ := List.forall_mem_cons.mp hexp
    unfold compileAll
    have head : Yields (compile R limits expanding b t) s (Follows U V b fun e => t.core e) := by
      rcases Nat.lt_or_eq_of_le hb with hlt | rfl
      · exact ih b hlt expanding t V s hts.1 hfirst
      · exact yields_follow_compile hl ih t hts.1 hfirst
    apply head.bind
    intro t' s₁ hs₁ ht
    apply (yields_follow_compileAll hl ih ts (Nat.le_trans t'.left_le hb) (hts.2.later hs₁)
      hrest).bind
    intro ts' s₂ hs₂ hts'
    refine .pure ⟨Nat.le_trans ts'.left_le t'.left_le, ⟨ht.regular.later hs₂, hts'.regular⟩,
      fun e => ?_, fun hleft => ?_⟩
    · have split : b - ts'.left = (b - t'.left) + (t'.left - ts'.left) := by
        have := ts'.left_le
        have := t'.left_le
        omega
      dsimp only
      rw [split]
      exact .cons (ht.takes e) (fun hspent => ht.next_eq_none (by omega) e) (hts'.takes e)
    · dsimp only at hleft
      obtain ⟨hcomb, hbasic⟩ := ht.done (by have := ts'.left_le; omega)
      obtain ⟨hcombs, hbasics⟩ := hts'.done hleft
      exact ⟨⟨hcomb, hcombs⟩, List.forall_mem_cons.mpr ⟨hbasic, hbasics⟩⟩

end

/-- Compilation follows the eliminations of a term within every budget. -/
theorem yields_compile_follows (hl : limits.Ample) (budget : Nat) :
    FollowsWithin U R limits budget := by
  induction budget using Nat.strong_induction_on with
  | _ budget ih => exact fun expanding t V s ht hexp => yields_follow_compile hl ih t ht hexp

end Term

end Combinatory
