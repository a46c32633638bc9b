import Combinatory.Bracket
import Combinatory.Proofs.Combination.Symbols
import Mathlib.Logic.Function.Basic

/-!
# Bracket abstraction of combinations

The abstraction of a combination over a variable is a combination in which the variable does not
occur. It brings in no combinators but `S`, `K` and `I`, and does not depend on the name of the
variable (`rename_bracket`), and neither does the number of eliminations that it takes. Applied to
an argument, it rewrites to the combination with the argument in place of the variable
(`steps_bracket`).
-/

namespace Combinatory

open Function (update)
open Relation (ReflTransGen)

namespace Combination

/-! ### Kinds of combinators -/

/-- Whether all combinators are of a kind. -/
def Uses (ok : Native → Prop) : Combination → Prop
  | var _ => True
  | native c => ok c
  | app f a => f.Uses ok ∧ a.Uses ok

variable {ok : Native → Prop}

/-- A spine uses the combinators of its head and of its arguments. -/
theorem uses_apps {t : Combination} {as : List Combination} :
    (t.apps as).Uses ok ↔ t.Uses ok ∧ ∀ a ∈ as, a.Uses ok := by
  induction as generalizing t with
  | nil => simp
  | cons a as ih => simp [ih, Uses, and_assoc]

/-- An assignment brings in the combinators of what is put in place. -/
theorem Uses.subst {t : Combination} (h : t.Uses ok) {σ : Variable → Combination}
    (hσ : ∀ v, t.Mentions v → (σ v).Uses ok) : (t.subst σ).Uses ok := by
  induction t with
  | var v => exact hσ v rfl
  | native c => exact h
  | app f a ihf iha =>
    exact ⟨ihf h.1 fun v hv => hσ v (.inl hv), iha h.2 fun v hv => hσ v (.inr hv)⟩

/-- An assignment removes no combinators. -/
theorem Uses.of_subst {t : Combination} {σ : Variable → Combination}
    (h : (t.subst σ).Uses ok) : t.Uses ok := by
  induction t with
  | var v => trivial
  | native c => exact h
  | app f a ihf iha => exact ⟨ihf h.1, iha h.2⟩

/-- Without combinators there is nothing to rewrite. -/
theorem not_rewrites_of_uses {t u : Combination} (h : t.Uses fun _ => False) : ¬ Rewrites t u := by
  intro hstep
  induction hstep with
  | fire hr has => exact (uses_apps.mp h).1
  | left _ a ih => exact ih h.1
  | right f _ ih => exact ih h.2

/-! ### Renaming -/

/-- The combination with its variables renamed. -/
def rename (π : Variable → Variable) (t : Combination) : Combination := t.subst (var ∘ π)

/-- A variable occurs after a renaming if one that is given its name did before. -/
theorem mentions_rename {π : Variable → Variable} {v : Variable} {t : Combination} :
    (t.rename π).Mentions v ↔ ∃ w, t.Mentions w ∧ v = π w :=
  mentions_subst

/-- Only the names of the variables that occur matter. -/
theorem rename_congr {π ρ : Variable → Variable} {t : Combination}
    (h : ∀ v, t.Mentions v → π v = ρ v) : t.rename π = t.rename ρ :=
  subst_congr fun v hv => congrArg var (h v hv)

/-- Where every name is kept, the combination stays. -/
theorem rename_eq_self {π : Variable → Variable} {t : Combination}
    (h : ∀ v, t.Mentions v → π v = v) : t.rename π = t :=
  (subst_congr fun v hv => congrArg var (h v hv)).trans t.subst_var

/-- Whether a renaming confuses a variable with no other that occurs. -/
def Separates (π : Variable → Variable) (v : Variable) (t : Combination) : Prop :=
  ∀ w, t.Mentions w → π w = π v → w = v

/-- A variable that is not confused occurs after a renaming if it did before. -/
theorem Separates.mentions_iff {π : Variable → Variable} {v : Variable} {t : Combination}
    (h : Separates π v t) : (t.rename π).Mentions (π v) ↔ t.Mentions v := by
  rw [mentions_rename]
  constructor
  · rintro ⟨w, hw, heq⟩
    rwa [← h w hw heq.symm]
  · exact fun hv => ⟨v, hv, rfl⟩

/-- A variable that is not confused is the only one that takes its name. -/
private theorem Separates.eq_var_iff {π : Variable → Variable} {v : Variable} {t : Combination}
    (h : Separates π v t) : t.rename π = var (π v) ↔ t = var v := by
  constructor
  · intro heq
    cases t with
    | var w =>
      injection heq with heq
      rw [h w rfl heq]
    | _ => cases heq
  · rintro rfl
    rfl

/-! ### Abstraction -/

/-- The abstraction of a combination over a variable. -/
def bracket (v : Variable) : Combination → Combination
  | var w => if w = v then native .I else app (native .K) (var w)
  | native c => app (native .K) (native c)
  | app f a =>
    if ¬ (app f a).Mentions v then app (native .K) (app f a)
    else if a = var v ∧ ¬ f.Mentions v then f
    else app (app (native .S) (bracket v f)) (bracket v a)

/-- How many eliminations the abstraction over a variable takes. -/
def eliminations (v : Variable) : Combination → Nat
  | var _ => 1
  | native _ => 1
  | app f a =>
    if ¬ (app f a).Mentions v then 1
    else if a = var v ∧ ¬ f.Mentions v then 1
    else 1 + eliminations v f + eliminations v a

theorem eliminations_pos (v : Variable) (t : Combination) : 0 < eliminations v t := by
  cases t with
  | app f a =>
    rw [eliminations]
    split
    · exact Nat.one_pos
    · split
      · exact Nat.one_pos
      · omega
  | _ => exact Nat.one_pos

/-- All variables of a combination but the one are mentioned in its abstraction. -/
theorem mentions_bracket {v w : Variable} {t : Combination} :
    (bracket v t).Mentions w ↔ t.Mentions w ∧ w ≠ v := by
  have constant {c : Combination} (hc : ¬ c.Mentions v) :
      (app (native .K) c).Mentions w ↔ c.Mentions w ∧ w ≠ v := by
    simp only [Mentions, false_or]
    refine ⟨fun hw => ⟨hw, ?_⟩, And.left⟩
    rintro rfl
    exact hc hw
  induction t with
  | var u =>
    rw [bracket]
    split
    · next h => simp [Mentions, h]
    · next h => exact constant (Ne.symm h)
  | native c => exact constant id
  | app f a ihf iha =>
    rw [bracket]
    split
    · next habsent => exact constant habsent
    · split
      · next heta =>
        obtain ⟨rfl, habsent⟩ := heta
        constructor
        · intro hw
          refine ⟨.inl hw, ?_⟩
          rintro rfl
          exact habsent hw
        · rintro ⟨hw | hw, hwv⟩
          · exact hw
          · exact absurd hw hwv
      · simp only [Mentions, ihf, iha, false_or, or_and_right]

/-- Abstraction brings in `S`, `K` and `I`. -/
theorem uses_bracket {v : Variable} {t : Combination} (hI : ok .I) (hK : ok .K) (hS : ok .S)
    (h : t.Uses ok) : (bracket v t).Uses ok := by
  induction t with
  | var w =>
    rw [bracket]
    split
    · exact hI
    · exact ⟨hK, trivial⟩
  | native c => exact ⟨hK, h⟩
  | app f a ihf iha =>
    rw [bracket]
    split
    · exact ⟨hK, h⟩
    · split
      · exact h.1
      · exact ⟨⟨hS, ihf h.1⟩, iha h.2⟩

/-- Abstraction does not depend on the names of variables, and neither does the number of
eliminations. -/
theorem rename_bracket {π : Variable → Variable} {v : Variable} {t : Combination}
    (h : Separates π v t) : (bracket v t).rename π = bracket (π v) (t.rename π) ∧
      eliminations (π v) (t.rename π) = eliminations v t := by
  induction t with
  | var w =>
    refine ⟨?_, rfl⟩
    have same : π w = π v ↔ w = v := ⟨h w rfl, congrArg π⟩
    by_cases hw : w = v
    · simp [bracket, rename, subst, hw]
    · simp [bracket, rename, subst, hw, mt same.mp hw]
  | native c => exact ⟨rfl, rfl⟩
  | app f a ihf iha =>
    have hf : Separates π v f := fun w hw => h w (.inl hw)
    have ha : Separates π v a := fun w hw => h w (.inr hw)
    have whole : (app f a).rename π = app (f.rename π) (a.rename π) := rfl
    have mentions : (app (f.rename π) (a.rename π)).Mentions (π v) ↔ (app f a).Mentions v :=
      h.mentions_iff
    rw [whole, bracket, eliminations, bracket, eliminations]
    simp only [mentions, hf.mentions_iff, ha.eq_var_iff, ihf hf, iha ha]
    refine ⟨?_, trivial⟩
    split
    · rfl
    · split
      · rfl
      · rw [← (ihf hf).1, ← (iha ha).1]
        rfl

/-- The abstraction of a combination over several variables, the first outermost. -/
def bracketAll (vs : List Variable) (t : Combination) : Combination := vs.foldr bracket t

/-- How many eliminations the abstraction over several variables takes. -/
def eliminationsAll : List Variable → Combination → Nat
  | [], _ => 0
  | v :: vs, t => eliminationsAll vs t + eliminations v (bracketAll vs t)

/-- No variable that is abstracted over is mentioned. -/
theorem mentions_bracketAll {vs : List Variable} {w : Variable} {t : Combination} :
    (bracketAll vs t).Mentions w ↔ t.Mentions w ∧ w ∉ vs := by
  induction vs with
  | nil => simp [bracketAll]
  | cons v vs ih =>
    have step : bracketAll (v :: vs) t = bracket v (bracketAll vs t) := rfl
    rw [step, mentions_bracket, ih, List.mem_cons, not_or, and_assoc, and_comm (a := w ∉ vs)]

/-- Abstraction over several variables brings in `S`, `K` and `I`. -/
theorem uses_bracketAll {vs : List Variable} {t : Combination} (hI : ok .I) (hK : ok .K)
    (hS : ok .S) (h : t.Uses ok) : (bracketAll vs t).Uses ok := by
  induction vs with
  | nil => exact h
  | cons v vs ih => exact uses_bracket hI hK hS ih

/-! ### Rewriting an abstraction -/

/-- What is constant rewrites to itself, whatever it is applied to. -/
private theorem rewrites_constant (c x : Combination) :
    Rewrites (app (app (native .K) c) x) c :=
  @Rewrites.fire .K _ [c, x] rfl rfl

/-- An abstraction that is applied to an argument rewrites to the combination with the argument in
place of the variable, under any assignment to the others. -/
theorem steps_bracket (σ : Variable → Combination) (v : Variable) (x t : Combination) :
    ReflTransGen Rewrites (app ((bracket v t).subst σ) x) (t.subst (update σ v x)) := by
  -- an assignment to a variable that is not mentioned does not matter
  have absent {c : Combination} (hc : ¬ c.Mentions v) : c.subst (update σ v x) = c.subst σ := by
    refine subst_congr fun w hw => Function.update_of_ne ?_ _ _
    rintro rfl
    exact hc hw
  induction t with
  | var w =>
    rw [bracket]
    split
    · next h =>
      rw [h, subst, subst, Function.update_self]
      exact .single (@Rewrites.fire .I _ [x] rfl rfl)
    · next h =>
      rw [absent (c := var w) (Ne.symm h)]
      exact .single (rewrites_constant _ _)
  | native c => exact .single (rewrites_constant _ _)
  | app f a ihf iha =>
    rw [bracket]
    split
    · next h =>
      rw [absent h]
      exact .single (rewrites_constant _ _)
    · split
      · next heta =>
        obtain ⟨rfl, hf⟩ := heta
        rw [subst, absent hf, subst, Function.update_self]
      · have shared : Rewrites
            (app (app (app (native .S) ((bracket v f).subst σ)) ((bracket v a).subst σ)) x)
            (app (app ((bracket v f).subst σ) x) (app ((bracket v a).subst σ) x)) :=
          @Rewrites.fire .S _ [_, _, x] rfl rfl
        exact (ReflTransGen.single shared).trans (Rewrites.steps_app ihf iha)

end Combination

/-! ### Rules -/

namespace Template

/-- How many arguments a rule makes use of, at least. -/
def width : Template → Nat
  | arg i => i + 1
  | app f a => max f.width a.width

/-- A rule that has its arguments brings in no combinators. -/
theorem uses_fill {ok : Native → Prop} {as : List Combination} {r : Template}
    (hr : r.width ≤ as.length) (has : ∀ a ∈ as, a.Uses ok) : (r.fill as).Uses ok := by
  induction r with
  | arg i =>
    rw [fill, Combination.nth, List.getD_eq_getElem _ _ hr]
    exact has _ (List.getElem_mem hr)
  | app f a ihf iha =>
    rw [width, Nat.max_le] at hr
    exact ⟨ihf hr.1, iha hr.2⟩

private theorem width_power (n : Nat) : (power n).width = 2 := by
  induction n with
  | zero => rfl
  | succ n ih => rw [power, width, ih]; rfl

/-- A rule makes use of no more arguments than the combinator waits for. -/
theorem width_le_arity {c : Native} {r : Template} (hr : c.template = some r) :
    r.width ≤ c.arity := by
  cases c with
  | numeral n =>
    cases hr
    exact Nat.le_of_eq (width_power n)
  | _ => cases hr <;> decide

variable {c : Native} {r : Template} {vs : List Variable}

/-- What a combinator makes of variables has no combinators. -/
theorem uses_fill_vars {ok : Native → Prop} (hr : c.template = some r)
    (hlen : vs.length = c.arity) : (r.fill (vs.map .var)).Uses ok := by
  refine uses_fill ?_ fun a ha => ?_
  · rw [List.length_map, hlen]
    exact width_le_arity hr
  · obtain ⟨v, -, rfl⟩ := List.mem_map.mp ha
    trivial

/-- What is made of variables mentions no others. -/
theorem mem_of_mentions_fill {v : Variable} (h : (r.fill (vs.map .var)).Mentions v) : v ∈ vs := by
  obtain ⟨a, ha, hv⟩ := mentions_fill h
  obtain ⟨w, hw, rfl⟩ := List.mem_map.mp ha
  obtain rfl : v = w := hv
  exact hw

end Template

end Combinatory
