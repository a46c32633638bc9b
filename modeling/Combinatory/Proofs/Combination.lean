import Combinatory.Term
import Mathlib.Data.List.Forall2
import Mathlib.Data.List.GetD
import Mathlib.Logic.Function.Iterate
import Mathlib.Logic.Relation

/-!
# Terms of combinatory logic

A combination applies one function to one argument, so an application to several arguments is a
spine of applications. The rule of a combinator is a template: it says where the arguments go. One
rewrite fires a combinator that has all its arguments, anywhere in a combination. Rewriting is kept
by assignments to the variables (`Rewrites.subst`).
-/

namespace Combinatory

open Relation (ReflTransGen)

/-- A term of combinatory logic. -/
inductive Combination where
  | var (v : Variable)
  | native (c : Native)
  | app (f a : Combination)
deriving DecidableEq, Repr

namespace Combination

/-! ### Spines -/

/-- The combination applied to arguments, one after another. -/
def apps (t : Combination) (as : List Combination) : Combination := as.foldl app t

@[simp] theorem apps_nil (t : Combination) : t.apps [] = t := rfl

@[simp] theorem apps_cons (t a : Combination) (as : List Combination) :
    t.apps (a :: as) = (app t a).apps as := rfl

/-- Applying to arguments and then to more is applying to all of them. -/
theorem apps_append (t : Combination) (as bs : List Combination) :
    t.apps (as ++ bs) = (t.apps as).apps bs := by
  rw [apps, List.foldl_append]
  rfl

/-- The last argument is applied to last. -/
theorem apps_concat (t : Combination) (as : List Combination) (a : Combination) :
    t.apps (as ++ [a]) = app (t.apps as) a :=
  apps_append t as [a]

/-- The variable or combinator that a combination begins with. -/
def head : Combination → Combination
  | app f _ => f.head
  | t => t

/-- What the head of a combination is applied to. -/
def args : Combination → List Combination
  | app f a => f.args ++ [a]
  | _ => []

/-- A combination is its head applied to its arguments. -/
theorem apps_head_args (t : Combination) : t.head.apps t.args = t := by
  induction t with
  | var v => rfl
  | native c => rfl
  | app f a ihf _ => rw [head, args, apps_concat, ihf]

/-- Applying keeps the head. -/
@[simp] theorem head_apps (t : Combination) (as : List Combination) :
    (t.apps as).head = t.head := by
  induction as generalizing t with
  | nil => rfl
  | cons a as ih => exact ih (app t a)

/-- Applying adds arguments. -/
@[simp] theorem args_apps (t : Combination) (as : List Combination) :
    (t.apps as).args = t.args ++ as := by
  induction as generalizing t with
  | nil => exact (List.append_nil _).symm
  | cons a as ih => rw [apps_cons, ih, args, List.append_assoc, List.singleton_append]

/-- A head has no arguments. -/
@[simp] theorem args_head (t : Combination) : t.head.args = [] := by
  induction t with
  | var v => rfl
  | native c => rfl
  | app f a ihf _ => exact ihf

/-- A head begins with itself. -/
@[simp] theorem head_head (t : Combination) : t.head.head = t.head := by
  induction t with
  | var v => rfl
  | native c => rfl
  | app f a ihf _ => exact ihf

/-- Spines with the same head and the same arguments are the same, and no others are. -/
theorem apps_inj {t u : Combination} (ht : t.args = []) (hu : u.args = [])
    {as bs : List Combination} (h : t.apps as = u.apps bs) : t = u ∧ as = bs := by
  have heads := congrArg head h
  have args := congrArg args h
  rw [args_apps, args_apps, ht, hu] at args
  rw [head_apps, head_apps] at heads
  refine ⟨?_, args⟩
  rw [← apps_head_args t, ← apps_head_args u, ht, hu, heads]

/-- Spines of combinators determine the combinator and its arguments. -/
theorem native_apps_inj {c d : Native} {as bs : List Combination}
    (h : (native c).apps as = (native d).apps bs) : c = d ∧ as = bs := by
  obtain ⟨hcd, has⟩ := apps_inj rfl rfl h
  exact ⟨by injection hcd, has⟩

/-- An argument is smaller than the whole. -/
theorem sizeOf_lt_of_mem_args {t a : Combination} (h : a ∈ t.args) : sizeOf a < sizeOf t := by
  induction t with
  | var v => cases h
  | native c => cases h
  | app f b ihf _ =>
    simp only [app.sizeOf_spec]
    rcases List.mem_append.mp h with h | h
    · have := ihf h
      omega
    · rw [List.mem_singleton.mp h]
      omega

/-- The argument at a place; beyond all arguments stands a combinator. -/
def nth (as : List Combination) (i : Nat) : Combination := as.getD i (native .I)

/-- A relation that holds of everything and itself holds place by place. -/
theorem forall₂_iff_nth {r : Combination → Combination → Prop} (hr : ∀ t, r t t)
    {as bs : List Combination} :
    List.Forall₂ r as bs ↔ as.length = bs.length ∧ ∀ i, r (nth as i) (nth bs i) := by
  constructor
  · intro h
    induction h with
    | nil => exact ⟨rfl, fun _ => hr _⟩
    | cons h _ ih =>
      refine ⟨congrArg (· + 1) ih.1, fun i => ?_⟩
      cases i with
      | zero => exact h
      | succ i => exact ih.2 i
  · rintro ⟨hlen, h⟩
    induction as generalizing bs with
    | nil =>
      rw [List.length_eq_zero_iff.mp hlen.symm]
      exact .nil
    | cons a as ih =>
      cases bs with
      | nil => cases hlen
      | cons b bs => exact .cons (h 0) (ih (Nat.succ.inj hlen) fun i => h (i + 1))

/-! ### Variables -/

/-- Whether a variable occurs. -/
def Mentions (v : Variable) : Combination → Prop
  | var w => v = w
  | native _ => False
  | app f a => f.Mentions v ∨ a.Mentions v

/-- What occurs in a spine occurs in its head or in an argument. -/
theorem mentions_apps {v : Variable} {t : Combination} {as : List Combination} :
    (t.apps as).Mentions v ↔ t.Mentions v ∨ ∃ a ∈ as, a.Mentions v := by
  induction as generalizing t with
  | nil => simp
  | cons a as ih => simp [ih, Mentions, or_assoc]

/-- The combination with everything put in place of the variables that an assignment says. -/
def subst (σ : Variable → Combination) : Combination → Combination
  | var v => σ v
  | native c => native c
  | app f a => app (f.subst σ) (a.subst σ)

/-- Where every variable stays, the combination stays. -/
@[simp] theorem subst_var (t : Combination) : t.subst var = t := by
  induction t with
  | var v => rfl
  | native c => rfl
  | app f a ihf iha => rw [subst, ihf, iha]

/-- Two assignments in a row are one. -/
theorem subst_subst (t : Combination) (σ τ : Variable → Combination) :
    (t.subst σ).subst τ = t.subst fun v => (σ v).subst τ := by
  induction t with
  | var v => rfl
  | native c => rfl
  | app f a ihf iha => rw [subst, subst, subst, ihf, iha]

/-- Only what is put in place of the variables that occur matters. -/
theorem subst_congr {t : Combination} {σ τ : Variable → Combination}
    (h : ∀ v, t.Mentions v → σ v = τ v) : t.subst σ = t.subst τ := by
  induction t with
  | var v => exact h v rfl
  | native c => rfl
  | app f a ihf iha =>
    rw [subst, subst, ihf fun v hv => h v (.inl hv), iha fun v hv => h v (.inr hv)]

/-- An assignment reaches the head and the arguments. -/
theorem subst_apps (σ : Variable → Combination) (t : Combination) (as : List Combination) :
    (t.apps as).subst σ = (t.subst σ).apps (as.map (subst σ)) := by
  induction as generalizing t with
  | nil => rfl
  | cons a as ih => rw [apps_cons, ih, List.map_cons, apps_cons, subst]

/-- What occurs after an assignment comes from what is put in. -/
theorem mentions_subst {v : Variable} {t : Combination} {σ : Variable → Combination} :
    (t.subst σ).Mentions v ↔ ∃ w, t.Mentions w ∧ (σ w).Mentions v := by
  induction t with
  | var w => simp [subst, Mentions]
  | native c => simp [subst, Mentions]
  | app f a ihf iha => simp [subst, Mentions, ihf, iha, or_and_right, exists_or]

end Combination

/-! ### Rules -/

/-- What a rule makes of the arguments of a combinator, which are given by their places. -/
inductive Template where
  | arg (i : Nat)
  | app (f a : Template)
deriving DecidableEq, Repr

namespace Template

open Combination (nth)

/-- The template with arguments put in. -/
def fill (as : List Combination) : Template → Combination
  | arg i => nth as i
  | app f a => .app (f.fill as) (a.fill as)

/-- The first argument applied `n` times to the second. -/
def power : Nat → Template
  | 0 => arg 1
  | n + 1 => app (arg 0) (power n)

/-- Repeated application of one argument to another. -/
theorem fill_power (n : Nat) (f x : Combination) (as : List Combination) :
    (power n).fill (f :: x :: as) = (Combination.app f)^[n] x := by
  induction n with
  | zero => rfl
  | succ n ih =>
    rw [Function.iterate_succ_apply', ← ih]
    rfl

/-- An assignment reaches the arguments of a rule. -/
theorem subst_fill (σ : Variable → Combination) (as : List Combination) (r : Template) :
    (r.fill as).subst σ = r.fill (as.map (Combination.subst σ)) := by
  induction r with
  | arg i =>
    simp only [fill, nth, List.getD_eq_getElem?_getD, List.getElem?_map]
    cases as[i]? <;> rfl
  | app f a ihf iha => rw [fill, fill, Combination.subst, ihf, iha]

/-- What occurs in the result of a rule occurs in an argument. -/
theorem mentions_fill {v : Variable} {as : List Combination} {r : Template}
    (h : (r.fill as).Mentions v) : ∃ a ∈ as, a.Mentions v := by
  induction r with
  | arg i =>
    by_cases hi : i < as.length
    · refine ⟨as[i], List.getElem_mem hi, ?_⟩
      rwa [fill, nth, List.getD_eq_getElem _ _ hi] at h
    · rw [fill, nth, List.getD_eq_default _ _ (Nat.le_of_not_lt hi)] at h
      exact h.elim
  | app f a ihf iha => exact h.elim ihf iha

end Template

namespace Native

open Template (arg app)

/-- The rule of a combinator that only moves its arguments around. -/
def template : Native → Option Template
  | I => some (arg 0)
  | K => some (arg 0)
  | S => some (app (app (arg 0) (arg 2)) (app (arg 1) (arg 2)))
  | B => some (app (arg 0) (app (arg 1) (arg 2)))
  | C => some (app (app (arg 0) (arg 2)) (arg 1))
  | W => some (app (app (arg 0) (arg 1)) (arg 1))
  | successor => some (app (arg 1) (app (app (arg 0) (arg 1)) (arg 2)))
  | numeral n => some (.power n)
  | toNumeral | lambdaMark | user _ => none

end Native

namespace Combination

/-- One rewrite: a combinator that has all its arguments fires, at any place. -/
inductive Rewrites : Combination → Combination → Prop where
  | fire {c : Native} {r : Template} {as : List Combination} (hr : c.template = some r)
      (has : as.length = c.arity) : Rewrites ((native c).apps as) (r.fill as)
  | left {f g : Combination} (h : Rewrites f g) (a : Combination) : Rewrites (app f a) (app g a)
  | right (f : Combination) {a b : Combination} (h : Rewrites a b) : Rewrites (app f a) (app f b)

namespace Rewrites

/-- Rewriting a function and its argument. -/
theorem steps_app {f g a b : Combination} (hf : ReflTransGen Rewrites f g)
    (ha : ReflTransGen Rewrites a b) : ReflTransGen Rewrites (app f a) (app g b) := by
  have function := hf.lift (app · a) fun _ _ h => h.left a
  have argument := ha.lift (app g) fun _ _ h => h.right g
  exact function.trans argument

/-- Rewriting the head of a spine. -/
theorem apps {t u : Combination} (h : Rewrites t u) (as : List Combination) :
    Rewrites (t.apps as) (u.apps as) := by
  induction as generalizing t u with
  | nil => exact h
  | cons a as ih => exact ih (h.left a)

/-- Rewriting goes on under an assignment. -/
theorem subst {t u : Combination} (h : Rewrites t u) (σ : Variable → Combination) :
    Rewrites (t.subst σ) (u.subst σ) := by
  induction h with
  | fire hr has =>
    rw [subst_apps, Template.subst_fill]
    exact .fire hr ((List.length_map _).trans has)
  | left _ a ih => exact ih.left _
  | right f _ ih => exact ih.right _

/-- A rewrite brings no variable in. -/
theorem mentions {v : Variable} {t u : Combination} (h : Rewrites t u) (hu : u.Mentions v) :
    t.Mentions v := by
  induction h with
  | fire hr has => exact mentions_apps.mpr (.inr (Template.mentions_fill hu))
  | left _ a ih => exact hu.imp ih id
  | right f _ ih => exact hu.imp id ih

end Rewrites

/-- No number of rewrites brings a variable in. -/
theorem mentions_of_steps {v : Variable} {t u : Combination} (h : ReflTransGen Rewrites t u)
    (hu : u.Mentions v) : t.Mentions v := by
  induction h with
  | refl => exact hu
  | tail _ hstep ih => exact ih (hstep.mentions hu)

end Combination

end Combinatory
