import Combinatory.Proofs.Conversion
import Mathlib.Data.List.Basic

/-!
# The lambda term that a term stands for

Combinators and numerals are read as the lambda terms that define them, a name as its definition,
and applications and lambdas as themselves. Each combinator applied to enough arguments converts to
what its rule gives; the successor of a numeral converts to the next numeral. A variable that the
reading mentions occurs in the term.
-/

namespace Combinatory

namespace LambdaTerm

/-- A function applied `n` times, one application around the other. -/
def iterate (f : LambdaTerm) : Nat → LambdaTerm → LambdaTerm
  | 0, x => x
  | n + 1, x => iterate f n (app f x)

/-- Once more on the outside is once more. -/
theorem app_iterate (f : LambdaTerm) (n : Nat) (x : LambdaTerm) :
    app f (f.iterate n x) = f.iterate (n + 1) x := by
  induction n generalizing x with
  | zero => rfl
  | succ n ih => exact ih (app f x)

/-- An assignment reaches the function and what it is applied to. -/
theorem subst_iterate (σ : Assignment) (f : LambdaTerm) (n : Nat) (x : LambdaTerm) :
    (f.iterate n x).subst σ = (f.subst σ).iterate n (x.subst σ) := by
  induction n generalizing x with
  | zero => rfl
  | succ n ih => rw [iterate, ih, iterate, subst]

/-- What occurs in repeated application occurs in the function or its argument. -/
theorem mentions_iterate {v : Variable} {f x : LambdaTerm} {n : Nat}
    (h : (f.iterate n x).Mentions v) : f.Mentions v ∨ x.Mentions v := by
  induction n generalizing x with
  | zero => exact Or.inr h
  | succ n ih =>
    rcases ih h with hf | hf | hx
    · exact Or.inl hf
    · exact Or.inl hf
    · exact Or.inr hx

/-- What occurs in an application occurs in its head or in an argument. -/
theorem mentions_apps {v : Variable} {t : LambdaTerm} {as : List LambdaTerm}
    (h : (t.apps as).Mentions v) : t.Mentions v ∨ ∃ a ∈ as, a.Mentions v := by
  induction as generalizing t with
  | nil => exact Or.inl h
  | cons a as ih =>
    rcases ih h with (ht | ha) | ⟨b, hb, hv⟩
    · exact Or.inl ht
    · exact Or.inr ⟨a, List.mem_cons_self, ha⟩
    · exact Or.inr ⟨b, List.mem_cons_of_mem a hb, hv⟩

/-- Assigning reaches the head and the arguments. -/
theorem subst_apps (σ : Assignment) (t : LambdaTerm) (as : List LambdaTerm) :
    (t.apps as).subst σ = (t.subst σ).apps (as.map (subst σ)) := by
  induction as generalizing t with
  | nil => rfl
  | cons a as ih => rw [apps_cons, ih, List.map_cons, apps_cons, subst]

/-- Replacing a variable reaches the head and the arguments. -/
theorem replace_apps (t : LambdaTerm) (as : List LambdaTerm) (v : Variable) (u : LambdaTerm) :
    (t.apps as).replace v u = (t.replace v u).apps (as.map fun a => a.replace v u) :=
  subst_apps (.single v u) t as

/-! ### Several arguments at once -/

/-- Two arguments in place of the two innermost variables. -/
def Assignment.arguments₂ (x y : LambdaTerm) : Assignment where
  bound
    | 0 => y
    | 1 => x
    | i + 2 => LambdaTerm.bound i
  free := LambdaTerm.free

/-- Three arguments in place of the three innermost variables. -/
def Assignment.arguments₃ (x y z : LambdaTerm) : Assignment where
  bound
    | 0 => z
    | 1 => y
    | 2 => x
    | i + 3 => LambdaTerm.bound i
  free := LambdaTerm.free

variable {η : Prop}

/-- Two lambdas take two arguments. -/
theorem Converts.beta₂ (b x y : LambdaTerm) :
    Converts η ((LambdaTerm.lam (.lam b)).apps [x, y]) (b.subst (.arguments₂ x y)) := by
  have second : (b.subst (Assignment.argument x).under).instantiate y =
      b.subst (.arguments₂ x y) := by
    rw [instantiate, subst_subst]
    congr 1
    ext i
    · rcases i with _ | _ | i
      · rfl
      · exact instantiate_shift x y
      · rfl
    · rfl
  exact ((Converts.beta _ _).app (.refl y)).trans ((Converts.beta _ _).trans (.of_eq second))

/-- Three lambdas take three arguments. -/
theorem Converts.beta₃ (b x y z : LambdaTerm) :
    Converts η ((LambdaTerm.lam (.lam (.lam b))).apps [x, y, z])
      (b.subst (.arguments₃ x y z)) := by
  have third : (b.subst (Assignment.arguments₂ x y).under).instantiate z =
      b.subst (.arguments₃ x y z) := by
    rw [instantiate, subst_subst]
    congr 1
    ext i
    · rcases i with _ | _ | _ | i
      · rfl
      · exact instantiate_shift y z
      · exact instantiate_shift x z
      · rfl
    · rfl
  exact ((Converts.beta₂ (.lam b) x y).app (.refl z)).trans
    ((Converts.beta _ _).trans (.of_eq third))

end LambdaTerm

namespace Native

open LambdaTerm (lam bound app Converts)

/-- Whether the combinator stands for a lambda term. -/
def isPure : Native → Bool
  | I | K | S | B | C | W | successor | numeral _ => true
  | toNumeral | lambdaMark | user _ => false

/-- The lambda term that a combinator stands for. Those that stand for none are read as the
identity. -/
def reading : Native → LambdaTerm
  | I => lam (bound 0)
  | K => lam (lam (bound 1))
  | S => lam (lam (lam (app (app (bound 2) (bound 0)) (app (bound 1) (bound 0)))))
  | B => lam (lam (lam (app (bound 2) (app (bound 1) (bound 0)))))
  | C => lam (lam (lam (app (app (bound 2) (bound 0)) (bound 1))))
  | W => lam (lam (app (app (bound 1) (bound 0)) (bound 0)))
  | successor => lam (lam (lam (app (bound 1) (app (app (bound 2) (bound 1)) (bound 0)))))
  | numeral n => lam (lam ((bound 1).iterate n (bound 0)))
  | toNumeral | lambdaMark | user _ => lam (bound 0)

/-- No variable is free in a combinator. -/
theorem not_mentions_reading (v : Variable) (c : Native) : ¬ c.reading.Mentions v := by
  cases c with
  | numeral n =>
    intro h
    rcases LambdaTerm.mentions_iterate (h : ((bound 1).iterate n (bound 0)).Mentions v) with h | h
    · exact h
    · exact h
  | _ => simp [reading, LambdaTerm.Mentions]

variable {η : Prop} (x y z : LambdaTerm)

theorem converts_I : Converts η (I.reading.apps [x]) x := .beta _ _

theorem converts_K : Converts η (K.reading.apps [x, y]) x := .beta₂ _ _ _

theorem converts_S :
    Converts η (S.reading.apps [x, y, z]) (x.apps [z, app y z]) := .beta₃ _ _ _ _

theorem converts_B : Converts η (B.reading.apps [x, y, z]) (app x (app y z)) := .beta₃ _ _ _ _

theorem converts_C : Converts η (C.reading.apps [x, y, z]) (x.apps [z, y]) := .beta₃ _ _ _ _

theorem converts_W : Converts η (W.reading.apps [x, y]) (x.apps [y, y]) := .beta₂ _ _ _

theorem converts_successor :
    Converts η (successor.reading.apps [x, y, z]) (app y (x.apps [y, z])) := .beta₃ _ _ _ _

/-- A numeral repeats its first argument on its second. -/
theorem converts_numeral (n : Nat) :
    Converts η ((numeral n).reading.apps [x, y]) (x.iterate n y) := by
  refine (Converts.beta₂ _ _ _).trans (.of_eq ?_)
  rw [LambdaTerm.subst_iterate]
  rfl

/-- The successor of a numeral is the next numeral. -/
theorem converts_successor_numeral (n : Nat) :
    Converts η (app successor.reading (numeral n).reading) (numeral (n + 1)).reading := by
  have body : Converts η
      (app (bound 1) ((numeral n).reading.apps [bound 1, bound 0]))
      ((bound 1).iterate (n + 1) (bound 0)) := by
    rw [← LambdaTerm.app_iterate]
    exact (Converts.refl _).app (converts_numeral _ _ n)
  have closed : (lam (lam (app (bound 1) (app (app (bound 2) (bound 1)) (bound 0))))).instantiate
      (numeral n).reading =
      lam (lam (app (bound 1) ((numeral n).reading.apps [bound 1, bound 0]))) := by
    have shifted : (numeral n).reading.shift.shift = (numeral n).reading := by
      simp only [reading, LambdaTerm.shift_eq_subst, LambdaTerm.subst, LambdaTerm.subst_iterate]
      rfl
    conv_rhs => rw [← shifted]
    rfl
  refine (Converts.beta _ _).trans ?_
  rw [closed]
  exact body.lam.lam

end Native

namespace Term

mutual

/-- The lambda term that a term stands for. A literal stands for none and is read as the
identity. -/
def reading : Term → LambdaTerm
  | var v => .free v
  | native c => c.reading
  | foreign _ => .lam (.bound 0)
  | named _ d => reading d
  | lam v b => (reading b).abs v
  | app _ h as => (reading h).apps (readings as)

/-- The lambda terms that the terms of a list stand for. -/
def readings : List Term → List LambdaTerm
  | [] => []
  | a :: as => reading a :: readings as

end

/-- The readings of a list are those of its terms. -/
theorem readings_eq_map (ts : List Term) : readings ts = ts.map reading := by
  induction ts with
  | nil => rfl
  | cons t ts ih => rw [readings, ih, List.map_cons]

/-- Readings are taken part by part. -/
theorem readings_append (ts us : List Term) :
    readings (ts ++ us) = readings ts ++ readings us := by
  rw [readings_eq_map, readings_eq_map, readings_eq_map, List.map_append]

mutual

/-- What the reading mentions occurs in the term. -/
theorem occurs_of_mentions {v : Variable} :
    ∀ {t : Term}, t.reading.Mentions v → t.occurs v = true
  | var w, h => by
    cases h
    simp [occurs]
  | native c, h => absurd h (c.not_mentions_reading v)
  | foreign x, h => h.elim
  | named info d, h => occurs_of_mentions (t := d) h
  | lam w b, h => by
    obtain ⟨hvw, hb⟩ := LambdaTerm.mentions_abs h
    have := occurs_of_mentions hb
    simp [occurs, this, Ne.symm hvw]
  | app n hd as, h => by
    rw [occurs, Bool.or_eq_true]
    rcases LambdaTerm.mentions_apps h with h | ⟨a, ha, hv⟩
    · exact Or.inl (occurs_of_mentions h)
    · exact Or.inr (occursAny_of_mentions ha hv)

/-- What a reading of a list mentions occurs in one of its terms. -/
theorem occursAny_of_mentions {v : Variable} {a : LambdaTerm} :
    ∀ {ts : List Term}, a ∈ readings ts → a.Mentions v → occursAny v ts = true
  | [], ha, _ => by cases ha
  | t :: ts, ha, h => by
    rw [occursAny, Bool.or_eq_true]
    rcases List.mem_cons.mp ha with rfl | ha
    · exact Or.inl (occurs_of_mentions h)
    · exact Or.inr (occursAny_of_mentions ha h)

end

end Term

end Combinatory
