import Combinatory.Proofs.Compilation
import Combinatory.Proofs.Core

/-!
# Eliminations, one at a time

Compilation is a rewriting of cores. The next elimination is found from left to right: in the front
of an application before its last part, and in the body of a lambda before the lambda itself, whose
variable is eliminated when its body has none left (`Core.next`). A combinator that is not basic
gives way to its form. As there is at most one next elimination, what a number of them lead to is
determined (`Core.Takes.unique`), and they can be taken in as many goes as one likes.
-/

namespace Combinatory

/-- The place as it is seen above a lambda that it does not belong to. -/
def Place.lower : Place → Place
  | bound (i + 1) => bound i
  | p => p

@[simp] theorem Place.lower_lift (p : Place) : p.lift.lower = p := by
  cases p <;> rfl

/-- The core of a combination whose variables stand at some places. -/
def Combination.core (e : Places) : Combination → Core
  | var v => .var (e v)
  | native c => .native c
  | app f a => .app (f.core e) (a.core e)

namespace Core

/-- Whether a place occurs. -/
def occurs (p : Place) : Core → Bool
  | var q => q = p
  | native _ => false
  | lam b => occurs p.lift b
  | app f a => occurs p f || occurs p a

/-- The core as it is written above a lambda that it does not mention. -/
def lower (x : Core) : Core := x.move Place.lower

/-- A number of lambdas over a core. -/
def lams : Nat → Core → Core
  | 0, x => x
  | n + 1, x => lam (lams n x)

end Core

/-- The lambdas that a combinator stands for, if it has a template. -/
def Native.form? (c : Native) : Option Core :=
  c.template.map fun r => .lams c.arity ((r.fill (c.places.map .var)).core
    (Places.bindAll .free c.places))

namespace Core

/-- A lambda whose variable has been eliminated from its body. -/
def eliminated : Core → Core
  | var p => if p = .bound 0 then native .I else app (native .K) (var p.lower)
  | native c => app (native .K) (native c)
  | lam b => lam (lam b)
  | app f a =>
    if !(app f a).occurs (.bound 0) then app (native .K) (app f a).lower
    else if a = var (.bound 0) ∧ !f.occurs (.bound 0) then f.lower
    else app (app (native .S) (lam f)) (lam a)

/-- The core after the next elimination, if there is one. -/
def next : Core → Option Core
  | var _ => none
  | native c => if c.isBase then none else c.form?
  | lam b =>
    match next b with
    | some b' => some (lam b')
    | none => some (eliminated b)
  | app f a =>
    match next f with
    | some f' => some (app f' a)
    | none => (next a).map (app f)

/-- One core leads to another by a number of eliminations. -/
def Takes : Nat → Core → Core → Prop
  | 0, x, y => x = y
  | k + 1, x, y => ∃ z, x.next = some z ∧ Takes k z y

variable {j k m : Nat} {x y z f a : Core}

namespace Takes

theorem refl (x : Core) : Takes 0 x x := rfl

/-- One elimination. -/
theorem one (h : x.next = some y) : Takes 1 x y := ⟨y, h, rfl⟩

/-- Eliminations may be taken in two goes. -/
theorem trans (h : Takes j x y) (h' : Takes k y z) : Takes (j + k) x z := by
  induction j generalizing x with
  | zero => simpa [show x = y from h] using h'
  | succ j ih =>
    obtain ⟨w, hw, h⟩ := h
    rw [Nat.succ_add]
    exact ⟨w, hw, ih h⟩

/-- Eliminations in a body are eliminations in the lambda. -/
theorem lam (h : Takes k x y) : Takes k (.lam x) (.lam y) := by
  induction k generalizing x with
  | zero => exact congrArg Core.lam h
  | succ k ih =>
    obtain ⟨w, hw, h⟩ := h
    exact ⟨.lam w, by simp [next, hw], ih h⟩

theorem app_left (h : Takes k x y) (a : Core) : Takes k (app x a) (app y a) := by
  induction k generalizing x with
  | zero => exact congrArg (app · a) h
  | succ k ih =>
    obtain ⟨w, hw, h⟩ := h
    exact ⟨app w a, by simp [next, hw], ih h⟩

/-- The last part of an application is looked at when nothing is left to do in its front. -/
theorem app_right (h : Takes k x y) (hf : k ≠ 0 → f.next = none) :
    Takes k (app f x) (app f y) := by
  induction k generalizing x with
  | zero => exact congrArg (app f) h
  | succ k ih =>
    obtain ⟨w, hw, h⟩ := h
    have none := hf (Nat.succ_ne_zero k)
    exact ⟨app f w, by simp [next, none, hw], ih h fun _ => none⟩

theorem apps_left (h : Takes k x y) (zs : List Core) : Takes k (x.apps zs) (y.apps zs) := by
  induction zs generalizing x y with
  | nil => exact h
  | cons z zs ih => exact ih (h.app_left z)

/-- There is one way to take a number of eliminations. -/
theorem unique (h : Takes k x y) (h' : Takes k x z) : y = z := by
  induction k generalizing x with
  | zero => exact h.symm.trans h'
  | succ k ih =>
    obtain ⟨w, hw, h⟩ := h
    obtain ⟨w', hw', h'⟩ := h'
    rw [hw] at hw'
    cases hw'
    exact ih h h'

/-- Where none is left, no more can be taken, and what is left to take leads there. -/
theorem rest (h : Takes k x y) (hy : y.next = none) (h' : Takes m x z) :
    m ≤ k ∧ Takes (k - m) z y := by
  induction m generalizing k x with
  | zero =>
    rw [show x = z from h'] at h
    exact ⟨Nat.zero_le k, h⟩
  | succ m ih =>
    obtain ⟨w, hw, h'⟩ := h'
    cases k with
    | zero =>
      rw [show x = y from h, hy] at hw
      cases hw
    | succ k =>
      obtain ⟨w', hw', h⟩ := h
      rw [hw] at hw'
      cases hw'
      obtain ⟨hle, hrest⟩ := ih h h'
      exact ⟨Nat.succ_le_succ hle, by rwa [Nat.succ_sub_succ]⟩

end Takes

/-- The cores of one list lead to those of another by a number of eliminations, from left to
right. -/
inductive TakesAll : Nat → List Core → List Core → Prop where
  | nil : TakesAll 0 [] []
  | cons {j k : Nat} {x y : Core} {xs ys : List Core} (h : Takes j x y)
      (hy : k ≠ 0 → y.next = none) (hs : TakesAll k xs ys) : TakesAll (j + k) (x :: xs) (y :: ys)

/-- Arguments are looked at when nothing is left to do before them. -/
theorem TakesAll.apps {xs ys : List Core} (h : TakesAll k xs ys) (hf : k ≠ 0 → f.next = none) :
    Takes k (f.apps xs) (f.apps ys) := by
  induction h generalizing f with
  | nil => exact .refl f
  | @cons j k x y xs ys h hy hs ih =>
    have first : Takes j (app f x) (app f y) := h.app_right fun hj => hf (by omega)
    refine (first.apps_left xs).trans (ih fun hk => ?_)
    simp [next, hf (by omega), hy hk]

/-- Nothing is left to eliminate from applications when nothing is from their parts. -/
theorem next_apps_eq_none {xs : List Core} :
    (f.apps xs).next = none ↔ f.next = none ∧ ∀ x ∈ xs, x.next = none := by
  induction xs generalizing f with
  | nil => simp
  | cons x xs ih =>
    have one : (app f x).next = none ↔ f.next = none ∧ x.next = none := by
      cases hf : f.next <;> simp [next, hf]
    rw [apps_cons, ih, one, List.forall_mem_cons, and_assoc]

/-- No elimination ends with the successor. -/
theorem next_ne_successor (x : Core) : x.next ≠ some (native .successor) := by
  cases x with
  | var p => simp [next]
  | native c =>
    have form : ∀ y, c.form? = some y → ∃ b, y = lam b := by
      intro y hy
      obtain ⟨r, -, rfl⟩ := Option.map_eq_some_iff.mp hy
      obtain ⟨n, hn⟩ := Nat.exists_eq_succ_of_ne_zero c.arity_pos.ne'
      rw [hn]
      exact ⟨_, rfl⟩
    intro h
    rw [next] at h
    split at h
    · cases h
    · obtain ⟨b, hb⟩ := form _ h
      cases hb
  | lam b =>
    rw [next]
    split
    · simp
    · next hnone =>
      cases b with
      | var p =>
        rw [eliminated]
        split <;> simp
      | native c => simp [eliminated]
      | lam b => simp [eliminated]
      | app f a =>
        rw [eliminated]
        split
        · simp
        · split
          · -- the front of an eta rule has nothing left to eliminate, so it is not the successor
            intro h
            have succ : f = native .successor := by
              injection h with h
              cases f <;> simp_all [lower, move]
            rw [succ, next] at hnone
            have form : (native .successor).next.isSome = true := by decide
            revert hnone
            cases hs : (native Native.successor).next with
            | none => simp [hs] at form
            | some y => simp
          · simp
  | app f a =>
    rw [next]
    split <;> simp [Option.map_eq_some_iff]

/-- So the successor is never what eliminations end with. -/
theorem Takes.ne_successor (h : Takes k x y) (hk : k ≠ 0) : y ≠ native .successor := by
  induction k generalizing x with
  | zero => exact absurd rfl hk
  | succ k ih =>
    obtain ⟨w, hw, h⟩ := h
    cases k with
    | zero =>
      rintro rfl
      rw [show w = native .successor from h] at hw
      exact x.next_ne_successor hw
    | succ k => exact ih h (Nat.succ_ne_zero k)

end Core

/-! ### Combinations -/

namespace Combination

variable {e e' : Places} {v : Variable} {c : Combination}

/-- Only the places of the variables that occur matter. -/
theorem core_congr (h : ∀ v, c.Mentions v → e v = e' v) : c.core e = c.core e' := by
  induction c with
  | var v => rw [core, core, h v rfl]
  | native c => rfl
  | app f a ihf iha =>
    rw [core, core, ihf fun v hv => h v (.inl hv), iha fun v hv => h v (.inr hv)]

/-- A combination can be told from its core. -/
theorem core_free_injective : Function.Injective (core .free) := by
  intro c
  induction c with
  | var v => rintro (w | n | ⟨g, b⟩) h <;> simp_all [core]
  | native n => rintro (w | n | ⟨g, b⟩) h <;> simp_all [core]
  | app f a ihf iha =>
    rintro (w | n | ⟨g, b⟩) h
    · cases h
    · cases h
    · injection h with hf ha
      rw [ihf hf, iha ha]

theorem core_apps (c : Combination) (cs : List Combination) (e : Places) :
    (c.apps cs).core e = (c.core e).apps (cs.map (core e)) := by
  induction cs generalizing c with
  | nil => rfl
  | cons a cs ih => rw [apps_cons, ih, List.map_cons, Core.apps_cons, core]

theorem core_rename (π : Variable → Variable) (c : Combination) (e : Places) :
    (c.rename π).core e = c.core (e ∘ π) := by
  induction c with
  | var v => rfl
  | native c => rfl
  | app f a ihf iha =>
    rw [core, ← ihf, ← iha]
    rfl

theorem occurs_core (c : Combination) (p : Place) :
    (c.core e).occurs p = true ↔ ∃ v, c.Mentions v ∧ e v = p := by
  induction c with
  | var v => simp [core, Core.occurs, Mentions]
  | native c => simp [core, Core.occurs, Mentions]
  | app f a ihf iha => simp [core, Core.occurs, Mentions, ihf, iha, or_and_right, exists_or]

/-- Below a lambda its place occurs if its variable does. -/
theorem occurs_core_bind (c : Combination) (e : Places) (v : Variable) :
    (c.core (e.bind v)).occurs (.bound 0) = decide (c.Mentions v) := by
  rw [Bool.eq_iff_iff, occurs_core, decide_eq_true_iff]
  simp only [Places.bind_eq_bound_zero]
  constructor
  · rintro ⟨_, hw, rfl⟩
    exact hw
  · exact fun hv => ⟨v, hv, rfl⟩

/-- A combination that does not mention the variable of a lambda can be written above it. -/
theorem lower_core_bind (hv : ¬ c.Mentions v) (e : Places) :
    (c.core (e.bind v)).lower = c.core e := by
  induction c with
  | var w =>
    have hw : w ≠ v := fun h => hv h.symm
    simp [core, Core.lower, Core.move, Places.bind_of_ne hw]
  | native c => rfl
  | app f a ihf iha =>
    rw [core, Core.lower, Core.move, core, ← ihf fun h => hv (.inl h), ← iha fun h => hv (.inr h)]
    rfl

/-- There is nothing to eliminate from a combination of basic combinators. -/
theorem next_core (hc : c.Uses fun n => n.isBase = true) (e : Places) :
    (c.core e).next = none := by
  induction c with
  | var v => rfl
  | native c => exact if_pos hc
  | app f a ihf iha => simp [core, Core.next, ihf hc.1, iha hc.2]

/-- The variable of a lambda over an application is shared by `S`, unless a simpler rule applies. -/
theorem eliminated_core_app {f a : Combination} (hv : (app f a).Mentions v)
    (heta : ¬ (a = var v ∧ ¬ f.Mentions v)) (e : Places) :
    ((app f a).core (e.bind v)).eliminated =
      .app (.app (.native .S) (.lam (f.core (e.bind v)))) (.lam (a.core (e.bind v))) := by
  have mentioned := occurs_core_bind (app f a) e v
  have front := occurs_core_bind f e v
  rw [core] at mentioned ⊢
  rw [Core.eliminated, mentioned, front, decide_eq_true hv, if_neg (by simp), if_neg]
  rintro ⟨ha, hf⟩
  refine heta ⟨?_, by simpa using hf⟩
  cases a with
  | var w =>
    rw [core, Core.var.injEq, Places.bind_eq_bound_zero] at ha
    rw [ha]
  | native c => cases ha
  | app g b => cases ha

/-- The eta rule for the core of an application. -/
theorem eliminated_core_eta {f : Combination} (hv : ¬ f.Mentions v) (e : Places) :
    ((app f (var v)).core (e.bind v)).eliminated = f.core e := by
  have mentioned := occurs_core_bind (app f (var v)) e v
  have front := occurs_core_bind f e v
  rw [core] at mentioned ⊢
  rw [Core.eliminated, mentioned, front, lower_core_bind hv e, core, Places.bind_self]
  simp [Mentions, hv]

/-- A lambda over what does not mention its variable is constant. -/
theorem eliminated_core_constant (hv : ¬ c.Mentions v) (e : Places) :
    (c.core (e.bind v)).eliminated = .app (.native .K) (c.core e) := by
  have lowered := lower_core_bind hv e
  cases c with
  | var w =>
    have hw : w ≠ v := fun h => hv h.symm
    simp [core, Core.eliminated, Places.bind_of_ne hw]
  | native c => rfl
  | app f a =>
    have mentioned := occurs_core_bind (app f a) e v
    rw [core] at mentioned lowered ⊢
    rw [Core.eliminated, mentioned, decide_eq_false hv, lowered]
    rfl

end Combination

namespace Term

variable {e : Places} {t : Term} {s : Store}

mutual

/-- A term that is a combination has the core of the combination. -/
theorem IsCombination.core_eq : ∀ {t : Term}, t.IsCombination → ∀ e : Places,
    t.core e = t.combination.core e
  | var _, _, _ => rfl
  | native _, _, _ => rfl
  | app _ h as, ⟨hh, _, has⟩, e => by
    rw [core_app, combination, Combination.core_apps, IsCombination.core_eq hh.isCombination,
      AreCombinations.map_core has]
  | foreign _, ht, _ => ht.elim
  | named _ _, ht, _ => ht.elim
  | lam _ _, ht, _ => ht.elim

theorem AreCombinations.map_core : ∀ {ts : List Term}, AreCombinations ts → ∀ e : Places,
    ts.map (core e) = (combinations ts).map (Combination.core e)
  | [], _, _ => rfl
  | t :: ts, ⟨ht, hts⟩, e => by
    rw [List.map_cons, combinations, List.map_cons, IsCombination.core_eq ht,
      AreCombinations.map_core hts]

end

/-- What forms a combination has its core. -/
theorem Forms.core {c : Combination} (ht : t.Forms c) (e : Places) : t.core e = c.core e := by
  rw [ht.isCombination.core_eq, ht.combination]

end Term

end Combinatory
