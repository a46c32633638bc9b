import Combinatory.Equality
import Combinatory.Proofs.Combination.Leftmost
import Combinatory.Proofs.Outcome
import Combinatory.Proofs.Scope

/-!
# Terms that are combinations

A term that is put together by applying from variables, numerals and the combinators without a hook
is a flat combination: a variable or combinator applied to combinations. The engine computes on such
terms exactly as combinatory logic says: applying applies, every rule fills its template, and a step
of the leftmost strategy is the next step (`yields_leftmost`).
-/

namespace Combinatory

open Engine (Yields)

namespace Native

/-- The numerals and the combinators that have a template and no hook. -/
def isPlain : Native → Bool
  | I | K | S | B | C | W | numeral _ => true
  | _ => false

theorem hooked_of_isPlain {c : Native} (h : c.isPlain = true) : c.hooked = false := by
  cases c <;> first | rfl | cases h

theorem exists_template {c : Native} (h : c.isPlain = true) : ∃ r, c.template = some r := by
  cases c <;> first | exact ⟨_, rfl⟩ | cases h

end Native

namespace Term

/-- A variable or a combinator. -/
def IsAtom : Term → Prop
  | var _ => True
  | native c => c.isPlain = true
  | _ => False

mutual

/-- A variable or combinator applied to combinations. -/
def IsCombination : Term → Prop
  | var _ => True
  | native c => c.isPlain = true
  | app _ h as => IsAtom h ∧ as ≠ [] ∧ AreCombinations as
  | _ => False

/-- Whether all terms of a list are combinations. -/
def AreCombinations : List Term → Prop
  | [] => True
  | a :: as => IsCombination a ∧ AreCombinations as

end

mutual

/-- The combination that a term is. What is none is read as the identity. -/
def combination : Term → Combination
  | var v => .var v
  | native c => .native c
  | app _ h as => (combination h).apps (combinations as)
  | _ => .native .I

/-- The combinations that the terms of a list are. -/
def combinations : List Term → List Combination
  | [] => []
  | a :: as => combination a :: combinations as

end

theorem areCombinations_iff {ts : List Term} :
    AreCombinations ts ↔ ∀ t ∈ ts, IsCombination t := by
  induction ts with
  | nil => simp [AreCombinations]
  | cons t ts ih => simp [AreCombinations, ih]

theorem combinations_eq_map (ts : List Term) : combinations ts = ts.map combination := by
  induction ts with
  | nil => rfl
  | cons t ts ih => rw [combinations, ih, List.map_cons]

/-- An atom is a combination. -/
theorem IsAtom.isCombination {t : Term} (h : t.IsAtom) : t.IsCombination := by
  cases t <;> first | exact h | exact h.elim

/-- An atom has no step. -/
theorem IsAtom.idle {t : Term} (h : t.IsAtom) : t.Idle := by
  cases t <;> trivial

/-- An atom has no arguments. -/
theorem IsAtom.args_eq_nil {t : Term} (h : t.IsAtom) : t.combination.args = [] := by
  cases t <;> first | rfl | exact h.elim

/-- A combination is no literal. -/
theorem IsCombination.literal?_eq_none {t : Term} (h : t.IsCombination) : t.literal? = none := by
  cases t <;> first | rfl | exact h.elim

/-- Combinations can be applied to. -/
theorem firstLiteral_eq_none {ts : List Term} (h : AreCombinations ts) :
    firstLiteral ts = none :=
  List.findSome?_eq_none_iff.mpr fun t ht =>
    (areCombinations_iff.mp h t ht).literal?_eq_none

mutual

/-- There are no names in a combination. -/
theorem IsCombination.pending_eq_zero : ∀ {t : Term}, t.IsCombination → t.pending = 0
  | var _, _ => rfl
  | native _, _ => rfl
  | app _ _ _, ⟨hh, _, has⟩ => by
    rw [pending, hh.isCombination.pending_eq_zero, AreCombinations.pendingAll_eq_zero has]
  | foreign _, ht => ht.elim
  | named _ _, ht => ht.elim
  | lam _ _, ht => ht.elim

theorem AreCombinations.pendingAll_eq_zero : ∀ {ts : List Term}, AreCombinations ts →
    pendingAll ts = 0
  | [], _ => rfl
  | _ :: _, ⟨ht, hts⟩ => by
    rw [pendingAll, IsCombination.pending_eq_zero ht, AreCombinations.pendingAll_eq_zero hts]

end

mutual

/-- A combination fits a scope in which all its variables are visible. -/
theorem IsCombination.fits {Γ : Scope} {s : Store} : ∀ {t : Term}, t.IsCombination →
    (∀ v, t.occurs v = true → v ∈ Γ.visible) → t.Fits Γ s
  | var v, _, h => h v (by simp [occurs])
  | native c, hc, _ => by
    cases c <;> first | rfl | cases hc
  | app n hd as, ⟨hh, hne, has⟩, h =>
    ⟨hne, IsCombination.fits hh.isCombination fun v hv => h v (by simp [occurs, hv]),
      AreCombinations.fits has fun v hv => h v (by simp [occurs, hv])⟩
  | foreign _, ht, _ => ht.elim
  | named _ _, ht, _ => ht.elim
  | lam _ _, ht, _ => ht.elim

theorem AreCombinations.fits {Γ : Scope} {s : Store} : ∀ {ts : List Term}, AreCombinations ts →
    (∀ v, occursAny v ts = true → v ∈ Γ.visible) → FitsAll Γ s ts
  | [], _, _ => trivial
  | _ :: _, ⟨ht, hts⟩, h =>
    ⟨IsCombination.fits ht fun v hv => h v (by simp [occursAny, hv]),
      AreCombinations.fits hts fun v hv => h v (by simp [occursAny, hv])⟩

end

/-! ### Applying -/

/-- A term is the combination that is asked for. -/
structure Forms (t : Term) (c : Combination) : Prop where
  isCombination : t.IsCombination
  combination : t.combination = c

variable {s : Store}

theorem Forms.self {t : Term} (h : t.IsCombination) : t.Forms t.combination := ⟨h, rfl⟩

/-- Applying combinations to combinations gives the combination that it says. -/
theorem yields_apply (R : Rules) {t : Term} (ht : t.IsCombination) {as : List Term}
    (has : AreCombinations as) (s : Store) :
    Yields (apply R t as) s fun u _ => u.Forms (t.combination.apps (combinations as)) := by
  rw [apply_eq_extend R t (firstLiteral_eq_none has)]
  cases as with
  | nil =>
    unfold extend
    exact .pure (.self ht)
  | cons a as =>
    cases t with
    | var v =>
      rw [extend_var]
      refine (Engine.yields_node _ _ s).imp ?_
      rintro _ s' - ⟨n, rfl⟩
      exact ⟨⟨trivial, List.cons_ne_nil a as, has⟩, rfl⟩
    | native c =>
      rw [extend_native R (Native.hooked_of_isPlain ht)]
      refine (Engine.yields_node _ _ s).imp ?_
      rintro _ s' - ⟨n, rfl⟩
      exact ⟨⟨ht, List.cons_ne_nil a as, has⟩, rfl⟩
    | app n h bs =>
      obtain ⟨hh, -, hbs⟩ := ht
      rw [extend_app]
      refine (Engine.yields_node _ _ s).imp ?_
      rintro _ s' - ⟨m, rfl⟩
      refine ⟨⟨hh, List.append_ne_nil_of_right_ne_nil bs (List.cons_ne_nil a as), ?_⟩, ?_⟩
      · rw [areCombinations_iff] at hbs has ⊢
        exact List.forall_mem_append.mpr ⟨hbs, has⟩
      · simp only [combination, combinations_eq_map, List.map_append, Combination.apps_append]
    | _ => exact ht.elim

/-- Terms that form combinations are combinations, namely these. -/
theorem combinations_of_forms {as : List Term} {cs : List Combination}
    (h : List.Forall₂ Forms as cs) : AreCombinations as ∧ combinations as = cs := by
  induction h with
  | nil => exact ⟨trivial, rfl⟩
  | cons h _ ih => exact ⟨⟨h.isCombination, ih.1⟩, by rw [combinations, h.combination, ih.2]⟩

/-- Applying what forms combinations forms their application. -/
theorem Forms.apply (R : Rules) {t : Term} {c : Combination} (ht : t.Forms c) {as : List Term}
    {cs : List Combination} (has : List.Forall₂ Forms as cs) (s : Store) :
    Yields (t.apply R as) s fun u _ => u.Forms (c.apps cs) := by
  obtain ⟨args, rfl⟩ := combinations_of_forms has
  rw [← ht.combination]
  exact yields_apply R ht.isCombination args s

/-- The combinations of a list form what they are. -/
theorem forms_all {as : List Term} (h : AreCombinations as) :
    List.Forall₂ Forms as (combinations as) := by
  induction as with
  | nil => exact .nil
  | cons a as ih => exact .cons (.self h.1) (ih h.2)

end Term

/-! ### Rules -/

namespace Native

open Term (Forms)

variable {s : Store}

private theorem yields_iterate (R : Rules) {f x : Term} {F X : Combination} (n : Nat)
    (hf : f.Forms F) (hx : x.Forms X) (s : Store) :
    Yields (iterate R f x n) s fun u _ => u.Forms ((Combination.app F)^[n] X) := by
  induction n generalizing s x X with
  | zero =>
    unfold iterate
    exact .pure hx
  | succ n ih =>
    unfold iterate
    apply (hf.apply R (.cons hx .nil) s).bind
    intro y s₁ _ hy
    exact ih hy s₁

/-- Something is the combination that is asked for. -/
def GivesForm (c : Combination) (o : Option Term) : Prop := ∃ u, o = some u ∧ u.Forms c

private theorem yields_some {x : Engine Term} {c : Combination}
    (hx : Yields x s fun u _ => u.Forms c) :
    Yields (do return some (← x)) s fun o _ => GivesForm c o :=
  hx.bind fun u _ _ hu => .pure ⟨u, rfl, hu⟩

private theorem demandTerms_of_forms {parts : List Term} {cs : List Combination}
    (h : List.Forall₂ Forms parts cs) : demandTerms parts = pure () := by
  have none : Term.firstLiteral parts = none := by
    induction h with
    | nil => rfl
    | cons h _ ih =>
      rw [Term.firstLiteral, List.findSome?_cons, h.isCombination.literal?_eq_none]
      exact ih
  rw [demandTerms, none]

private theorem exists_two {as : List Term} {cs : List Combination}
    (h : List.Forall₂ Forms as cs) (hlen : 2 ≤ as.length) :
    ∃ x y as' X Y cs', as = x :: y :: as' ∧ cs = X :: Y :: cs' ∧ x.Forms X ∧ y.Forms Y := by
  rcases h with _ | ⟨hx, _ | ⟨hy, h⟩⟩
  · cases hlen
  · simp at hlen
  · exact ⟨_, _, _, _, _, _, rfl, rfl, hx, hy⟩

private theorem exists_three {as : List Term} {cs : List Combination}
    (h : List.Forall₂ Forms as cs) (hlen : 3 ≤ as.length) :
    ∃ x y z as' X Y Z cs', as = x :: y :: z :: as' ∧ cs = X :: Y :: Z :: cs' ∧
      x.Forms X ∧ y.Forms Y ∧ z.Forms Z := by
  rcases h with _ | ⟨hx, _ | ⟨hy, _ | ⟨hz, h⟩⟩⟩
  · cases hlen
  · simp at hlen
  · simp at hlen
  · exact ⟨_, _, _, _, _, _, _, _, rfl, rfl, hx, hy, hz⟩

/-- A combinator that has all its arguments fills its template. -/
theorem yields_contract (R : Rules) {c : Native} {r : Template} (hr : c.template = some r)
    {as : List Term} {cs : List Combination} (has : List.Forall₂ Forms as cs)
    (hlen : c.arity ≤ as.length) (s : Store) :
    Yields (c.contract R as) s fun o _ => GivesForm (r.fill (cs.take c.arity)) o := by
  cases c with
  | I =>
    cases hr
    rcases has with _ | ⟨hx, _⟩
    · cases hlen
    · exact .pure ⟨_, rfl, hx⟩
  | K =>
    cases hr
    obtain ⟨x, y, _, X, Y, _, rfl, rfl, hx, -⟩ := exists_two has hlen
    exact .pure ⟨_, rfl, hx⟩
  | S =>
    cases hr
    obtain ⟨x, y, z, _, X, Y, Z, _, rfl, rfl, hx, hy, hz⟩ := exists_three has hlen
    rw [contract, demandTerms_of_forms (.cons hx (.cons hy .nil)), pure_bind]
    apply (hy.apply R (.cons hz .nil) s).bind
    intro yz s₁ _ hyz
    exact yields_some (hx.apply R (.cons hz (.cons hyz .nil)) s₁)
  | B =>
    cases hr
    obtain ⟨x, y, z, _, X, Y, Z, _, rfl, rfl, hx, hy, hz⟩ := exists_three has hlen
    rw [contract, demandTerms_of_forms (.cons hx (.cons hy .nil)), pure_bind]
    apply (hy.apply R (.cons hz .nil) s).bind
    intro yz s₁ _ hyz
    exact yields_some (hx.apply R (.cons hyz .nil) s₁)
  | C =>
    cases hr
    obtain ⟨x, y, z, _, X, Y, Z, _, rfl, rfl, hx, hy, hz⟩ := exists_three has hlen
    rw [contract, demandTerms_of_forms (.cons hx .nil), pure_bind]
    exact yields_some (hx.apply R (.cons hz (.cons hy .nil)) s)
  | W =>
    cases hr
    obtain ⟨x, y, _, X, Y, _, rfl, rfl, hx, hy⟩ := exists_two has hlen
    rw [contract, demandTerms_of_forms (.cons hx .nil), pure_bind]
    exact yields_some (hx.apply R (.cons hy (.cons hy .nil)) s)
  | successor =>
    cases hr
    obtain ⟨n, f, x, _, N, F, X, _, rfl, rfl, hn, hf, hx⟩ := exists_three has hlen
    rw [contract, demandTerms_of_forms (.cons hf (.cons hn .nil)), pure_bind]
    apply (hn.apply R (.cons hf (.cons hx .nil)) s).bind
    intro nfx s₁ _ hnfx
    exact yields_some (hf.apply R (.cons hnfx .nil) s₁)
  | numeral n =>
    cases hr
    obtain ⟨f, x, _, F, X, _, rfl, rfl, hf, hx⟩ := exists_two has hlen
    have filled : (Template.power n).fill [F, X] = (Combination.app F)^[n] X :=
      Template.fill_power n F X []
    exact filled ▸ yields_some (yields_iterate R n hf hx s)
  | _ => cases hr

end Native

namespace Term

/-! ### Steps -/

/-- What a step that is paid for gives. -/
def StepsTo (c : Combination) (o : Option Stepped) : Prop := ∃ u, o = some ⟨u, 1⟩ ∧ u.Forms c

/-- A rule fires on the arguments that it needs, and leaves the others. -/
theorem yields_reduce (R : Rules) {c : Native} {r : Template} (hr : c.template = some r)
    {as : List Term} {cs : List Combination} (has : List.Forall₂ Forms as cs)
    (hlen : c.arity ≤ as.length) (s : Store) :
    Yields (reduce R (native c) as) s fun o _ =>
      Native.GivesForm ((r.fill (cs.take c.arity)).apps (cs.drop c.arity)) o := by
  unfold reduce
  apply (Native.yields_contract R hr has hlen s).bind
  rintro _ s₁ - ⟨u, rfl, hu⟩
  have rest : List.Forall₂ Forms (as.drop c.arity) (cs.drop c.arity) := List.forall₂_drop _ has
  cases hform : u with
  | foreign x =>
    rw [hform] at hu
    exact hu.isCombination.elim
  | _ =>
    rw [hform] at hu
    apply (hu.apply R rest s₁).bind
    intro v s₂ _ hv
    exact .pure ⟨v, rfl, hv⟩

/-- The head of a combination waits when it does not fire. -/
private theorem waits_of_headStep {h : Term} {as : List Term} (hh : h.IsAtom)
    (hn : Combination.headStep (h.combination.apps (combinations as)) = none) : Waits h as := by
  cases h with
  | var v => trivial
  | native c =>
    obtain ⟨r, hr⟩ := Native.exists_template hh
    by_contra hlt
    have hlen : c.arity ≤ (combinations as).length := by
      rw [combinations_eq_map, List.length_map]
      exact Nat.le_of_not_lt hlt
    have fires := Combination.headStep_apps hr (List.length_take_of_le hlen)
      ((combinations as).drop c.arity)
    rw [List.take_append_drop] at fires
    rw [combination, fires] at hn
    cases hn
  | _ => exact hh.elim

mutual

/-- A combination without a next step is idle. -/
theorem idle_of_next : ∀ (t : Term), t.IsCombination →
    Combination.next t.combination = none → t.Idle
  | app n h as, ⟨hh, _, has⟩, hn => by
    obtain ⟨hhead, hinner⟩ := Combination.next_eq_none_iff.mp hn
    rw [combination, Combination.innerStep_apps hh.args_eq_nil, Option.map_eq_none_iff] at hinner
    exact ⟨waits_of_headStep hh hhead, hh.idle, idleAll_of_nextAmong as has hinner⟩
  | var v, _, _ => trivial
  | native c, _, _ => trivial
  | foreign x, h, _ => h.elim
  | named info d, h, _ => h.elim
  | lam v b, h, _ => h.elim

theorem idleAll_of_nextAmong : ∀ (as : List Term), AreCombinations as →
    Combination.nextAmong (combinations as) = none → IdleAll as
  | [], _, _ => trivial
  | a :: as, ⟨ha, has⟩, hn => by
    rw [combinations, Combination.nextAmong] at hn
    cases hnext : Combination.next a.combination with
    | some b =>
      rw [hnext] at hn
      cases hn
    | none =>
      rw [hnext] at hn
      exact ⟨idle_of_next a ha hnext, idleAll_of_nextAmong as has (Option.map_eq_none_iff.mp hn)⟩

end

/-- The head of a combination fires as the combination says. -/
private theorem reduce_of_headStep (R : Rules) {h : Term} {as : List Term} {u : Combination}
    (hh : h.IsAtom) (has : AreCombinations as)
    (hu : Combination.headStep (h.combination.apps (combinations as)) = some u) (s : Store) :
    Yields (reduce R h as) s fun o _ => Native.GivesForm u o := by
  obtain ⟨c, r, cs, bs, hr, hlen, heq, rfl⟩ := Combination.exists_of_headStep hu
  cases h with
  | native d =>
    obtain ⟨rfl, hcs⟩ := Combination.native_apps_inj heq
    have enough : d.arity ≤ as.length := by
      have := congrArg List.length hcs
      rw [combinations_eq_map, List.length_map, List.length_append, hlen] at this
      omega
    have fires := yields_reduce R hr (forms_all has) enough s
    rwa [hcs, ← hlen, List.take_left, List.drop_left] at fires
  | var v =>
    obtain ⟨h, -⟩ := Combination.apps_inj rfl rfl heq
    cases h
  | _ => exact hh.elim

mutual

/-- A combination that has a next step takes it. -/
theorem yields_leftmost (R : Rules) : ∀ (t : Term), t.IsCombination → ∀ {c : Combination},
    Combination.next t.combination = some c → ∀ s : Store,
      Yields (leftmost R t) s fun o _ => StepsTo c o
  | app n h as, ⟨hh, _, has⟩, c, hc, s => by
    unfold leftmost
    rw [combination, Combination.next] at hc
    cases hhead : Combination.headStep (h.combination.apps (combinations as)) with
    | some u =>
      rw [hhead, Option.some_or] at hc
      cases hc
      apply (reduce_of_headStep R hh has hhead s).bind
      rintro _ s₁ - ⟨t, rfl, ht⟩
      exact .pure ⟨t, rfl, ht⟩
    | none =>
      rw [hhead, Option.none_or, Combination.innerStep_apps hh.args_eq_nil] at hc
      obtain ⟨cs, hcs, rfl⟩ := Option.map_eq_some_iff.mp hc
      rw [reduce_of_waits (waits_of_headStep hh hhead), pure_bind,
        leftmost_of_idle R hh.idle, pure_bind]
      apply (yields_leftmostAmong R as has hcs s).bind
      rintro _ s₁ - ⟨us, rfl, hus⟩
      apply (Forms.apply R (.self hh.isCombination) hus s₁).bind
      intro u s₂ _ hu
      exact .pure ⟨u, rfl, hu⟩
  | var v, _, c, hc, s => nomatch hc
  | native d, _, c, hc, s => by
    cases d <;> cases hc
  | foreign x, h, c, hc, s => h.elim
  | named info d, h, c, hc, s => h.elim
  | lam v b, h, c, hc, s => h.elim

theorem yields_leftmostAmong (R : Rules) : ∀ (as : List Term), AreCombinations as →
    ∀ {cs : List Combination}, Combination.nextAmong (combinations as) = some cs → ∀ s : Store,
      Yields (leftmostAmong R as) s fun o _ => ∃ us, o = some ⟨us, 1⟩ ∧ List.Forall₂ Forms us cs
  | [], _, cs, hcs, s => nomatch hcs
  | a :: as, ⟨ha, has⟩, cs, hcs, s => by
    unfold leftmostAmong
    rw [combinations, Combination.nextAmong] at hcs
    cases hnext : Combination.next a.combination with
    | some b =>
      rw [hnext] at hcs
      cases hcs
      apply (yields_leftmost R a ha hnext s).bind
      rintro _ s₁ - ⟨u, rfl, hu⟩
      exact .pure ⟨_, rfl, .cons hu (forms_all has)⟩
    | none =>
      rw [hnext] at hcs
      obtain ⟨ds, hds, rfl⟩ := Option.map_eq_some_iff.mp hcs
      rw [leftmost_of_idle R (idle_of_next a ha hnext), pure_bind]
      apply (yields_leftmostAmong R as has hds s).bind
      rintro _ s₁ - ⟨us, rfl, hus⟩
      exact .pure ⟨_, rfl, .cons (.self ha) hus⟩

end

/-! ### Equality -/

/-- A combination that is an atom is given by the combination. -/
theorem IsAtom.eq_of_combination {t u : Term} (ht : t.IsAtom) (hu : u.IsCombination)
    (h : t.combination = u.combination) : t = u := by
  cases u with
  | app m g bs =>
    obtain ⟨hg, hne, -⟩ := hu
    have none := ht.args_eq_nil
    rw [h, combination, Combination.args_apps, hg.args_eq_nil, List.nil_append,
      combinations_eq_map, List.map_eq_nil_iff] at none
    exact absurd none hne
  | var w =>
    cases t with
    | var v => injection h with h; rw [h]
    | native c => cases h
    | _ => exact ht.elim
  | native d =>
    cases t with
    | var v => cases h
    | native c => injection h with h; rw [h]
    | _ => exact ht.elim
  | _ => exact hu.elim

/-- There is no name to look through in a combination. -/
private theorem IsCombination.unwrapped_eq {u : Term} (hu : u.IsCombination) : u.unwrapped = u := by
  cases u <;> first | rfl | exact hu.elim

variable {under : Variable → Term → Variable → Term → Engine Bool}

mutual

/-- Two combinations are equal as terms exactly when they are the same combination. -/
theorem equalBy_combination : ∀ (t u : Term), t.IsCombination → u.IsCombination →
    equalBy under t u = pure (decide (t.combination = u.combination))
  | app n h as, app m g bs, ⟨hh, _, has⟩, ⟨hg, _, hbs⟩ => by
    have whole : (app n h as).combination = (app m g bs).combination ↔
        h.combination = g.combination ∧ combinations as = combinations bs := by
      refine ⟨Combination.apps_inj hh.args_eq_nil hg.args_eq_nil, fun ⟨hhead, hargs⟩ => ?_⟩
      rw [combination, combination, hhead, hargs]
    rw [equalBy]
    split
    · next same => rw [same, decide_eq_true rfl]
    · simp only [unwrapped, whole]
      by_cases len : as.length = bs.length
      · rw [if_neg (not_not.mpr len),
          equalBy_combination h g hh.isCombination hg.isCombination, pure_bind]
        split
        · next hhead =>
          rw [equalAllBy_combinations as bs has hbs]
          simp [of_decide_eq_true hhead]
        · next hhead => simp [of_decide_eq_false (Bool.eq_false_iff.mpr hhead)]
      · have args : combinations as ≠ combinations bs := by
          intro hargs
          have := congrArg List.length hargs
          rw [combinations_eq_map, combinations_eq_map, List.length_map, List.length_map] at this
          exact len this
        rw [if_pos len]
        simp [args]
  | app n h as, var w, ht, hu => by
    have other : (app n h as).combination ≠ (var w).combination := fun heq =>
      nomatch IsAtom.eq_of_combination (t := var w) trivial ht heq.symm
    simp [equalBy, unwrapped, other]
  | app n h as, native c, ht, hu => by
    have other : (app n h as).combination ≠ (native c).combination := fun heq =>
      nomatch IsAtom.eq_of_combination (t := native c) hu ht heq.symm
    simp [equalBy, unwrapped, other]
  | var v, u, ht, hu => by
    have same : (var v).combination = u.combination ↔ var v = u :=
      ⟨IsAtom.eq_of_combination (t := var v) trivial hu, congrArg combination⟩
    by_cases h : var v = u <;> simp [equalBy, same, h, hu.unwrapped_eq]
  | native c, u, ht, hu => by
    have same : (native c).combination = u.combination ↔ native c = u :=
      ⟨IsAtom.eq_of_combination (t := native c) ht hu, congrArg combination⟩
    by_cases h : native c = u <;> simp [equalBy, same, h, hu.unwrapped_eq]
  | foreign x, _, ht, _ => ht.elim
  | named info d, _, ht, _ => ht.elim
  | lam v b, _, ht, _ => ht.elim
  | app _ _ _, foreign x, _, hu => hu.elim
  | app _ _ _, named info d, _, hu => hu.elim
  | app _ _ _, lam v b, _, hu => hu.elim

theorem equalAllBy_combinations : ∀ (ts us : List Term), AreCombinations ts →
    AreCombinations us → equalAllBy under ts us = pure (decide (combinations ts = combinations us))
  | [], [], _, _ => by simp [equalAllBy]
  | t :: ts, u :: us, ⟨ht, hts⟩, ⟨hu, hus⟩ => by
    rw [equalAllBy, equalBy_combination t u ht hu, pure_bind]
    split
    · next h =>
      rw [equalAllBy_combinations ts us hts hus]
      simp [combinations, of_decide_eq_true h]
    · next h => simp [combinations, of_decide_eq_false (Bool.eq_false_iff.mpr h)]
  | [], _ :: _, _, _ => by simp [equalAllBy, combinations]
  | _ :: _, [], _, _ => by simp [equalAllBy, combinations]

end

/-- Terms that are the same combination are equal. -/
theorem equal_of_forms (R : Rules) {t u : Term} {c : Combination} (ht : t.Forms c)
    (hu : u.Forms c) : equal R t u = pure true := by
  rw [equal, equalBy_combination t u ht.isCombination hu.isCombination, ht.combination,
    hu.combination, decide_eq_true rfl]

/-- Terms that are equal combinations are the same combination. -/
theorem Forms.eq_of_equal {R : Rules} {t u : Term} {c d : Combination} (ht : t.Forms c)
    (hu : u.Forms d) (h : equal R t u = pure true) : c = d := by
  rw [equal, equalBy_combination t u ht.isCombination hu.isCombination, ht.combination,
    hu.combination] at h
  have answer := congrFun h {}
  injection answer with same
  exact of_decide_eq_true same

end Term

end Combinatory
