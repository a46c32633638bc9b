import Combinatory.Term
import Mathlib.Logic.Function.Iterate

/-!
# Skeletons of terms

The skeleton of a term is what remains when the names of bound variables and the identities of
applications are forgotten. A bound variable is the number of lambdas between its own and itself,
and a name that is not terminal is replaced by its definition, in place. Two terms that differ in no
more than that have the same skeleton. A skeleton depends on where the free variables of the term
are placed, and only on those that occur (`skeleton_congr`); moving the places moves the skeleton
(`skeleton_comp`).
-/

namespace Combinatory

/-- Where a variable stands for its value: the lambda that has `i` others between itself and the
variable, or outside all lambdas. -/
inductive Place where
  | bound (i : Nat)
  | free (v : Variable)
deriving DecidableEq, Repr

namespace Place

/-- The place as it is seen below one more lambda. -/
def lift : Place → Place
  | bound i => bound (i + 1)
  | free v => free v

/-- A move of places as it is seen below one more lambda. -/
def under (r : Place → Place) : Place → Place
  | bound 0 => bound 0
  | bound (i + 1) => (r (bound i)).lift
  | free v => (r (free v)).lift

@[simp] theorem under_bound_zero (r : Place → Place) : under r (bound 0) = bound 0 := rfl

@[simp] theorem under_lift (r : Place → Place) (p : Place) : under r p.lift = (r p).lift := by
  cases p <;> rfl

@[simp] theorem lift_ne_bound_zero (p : Place) : p.lift ≠ bound 0 := by
  cases p <;> simp [lift]

theorem lift_injective : Function.Injective lift := by
  intro p q h
  cases p <;> cases q <;> simp_all [lift]

@[simp] theorem lift_inj {p q : Place} : p.lift = q.lift ↔ p = q := lift_injective.eq_iff

end Place

/-- The places of the free variables of a term. -/
abbrev Places := Variable → Place

namespace Places

/-- A place after the free variables have been put at some places. -/
def settle (e : Places) : Place → Place
  | .bound i => .bound i
  | .free v => e v

/-- The places below a lambda that binds a variable. -/
def bind (e : Places) (v : Variable) : Places := fun w => if w = v then .bound 0 else (e w).lift

variable {e : Places} {v w : Variable}

@[simp] theorem bind_self (e : Places) (v : Variable) : e.bind v v = .bound 0 := if_pos rfl

theorem bind_of_ne (h : w ≠ v) : e.bind v w = (e w).lift := if_neg h

/-- Only the variable of the lambda is placed there. -/
theorem bind_eq_bound_zero : e.bind v w = .bound 0 ↔ w = v := by
  by_cases h : w = v
  · simp [h]
  · simp [bind_of_ne h, h]

/-- Moving the places outside a lambda moves those below it. -/
theorem comp_bind (r : Place → Place) (e : Places) (v : Variable) :
    bind (r ∘ e) v = Place.under r ∘ e.bind v := by
  funext w
  by_cases h : w = v
  · simp [h]
  · simp [bind_of_ne h]

/-- Below a lambda too, free variables are put at their places after others have been bound. -/
theorem settle_comp_bind (e e' : Places) (y : Variable) :
    settle (Place.lift ∘ e) ∘ e'.bind y = bind (e.settle ∘ e') y := by
  have lifted (p : Place) : settle (Place.lift ∘ e) p.lift = (e.settle p).lift := by
    cases p <;> rfl
  funext w
  by_cases hw : w = y
  · simp [hw, settle]
  · rw [Function.comp_apply, bind_of_ne hw, bind_of_ne hw, lifted]
    rfl

/-- The places below lambdas that bind some variables, the first outermost. -/
def bindAll (e : Places) (vs : List Variable) : Places := vs.foldl bind e

/-- One more lambda below the others. -/
theorem bindAll_concat (e : Places) (vs : List Variable) (v : Variable) :
    e.bindAll (vs ++ [v]) = (e.bindAll vs).bind v := by
  rw [bindAll, List.foldl_append]
  rfl

/-- A variable that is not bound stands where it stood. -/
theorem bindAll_of_not_mem {vs : List Variable} (h : w ∉ vs) (e : Places) :
    e.bindAll vs w = Place.lift^[vs.length] (e w) := by
  induction vs generalizing e with
  | nil => rfl
  | cons v vs ih =>
    rw [List.mem_cons, not_or] at h
    have next : e.bindAll (v :: vs) = (e.bind v).bindAll vs := rfl
    rw [next, ih h.2, bind_of_ne h.1, List.length_cons, Function.iterate_succ_apply]

/-- Of some distinct variables, the last is bound innermost. -/
theorem bindAll_getElem {vs : List Variable} (hvs : vs.Nodup) {i : Nat} (hi : i < vs.length)
    (e : Places) : e.bindAll vs vs[i] = .bound (vs.length - 1 - i) := by
  induction vs generalizing e i with
  | nil => cases hi
  | cons v vs ih =>
    obtain ⟨hv, hvs⟩ := List.nodup_cons.mp hvs
    have next : e.bindAll (v :: vs) = (e.bind v).bindAll vs := rfl
    rw [next]
    cases i with
    | zero =>
      have lifted (n : Nat) : Place.lift^[n] (.bound 0) = .bound n := by
        induction n with
        | zero => rfl
        | succ n ih => rw [Function.iterate_succ_apply', ih, Place.lift]
      rw [List.getElem_cons_zero, bindAll_of_not_mem hv, bind_self, lifted]
      simp
    | succ i =>
      rw [List.length_cons, Nat.succ_lt_succ_iff] at hi
      rw [List.getElem_cons_succ, ih hvs hi, List.length_cons]
      congr 1
      omega

/-- Below some more lambdas nothing from outside stands for one of theirs. -/
private theorem le_of_lift_iterate_eq_bound {n i : Nat} {p : Place}
    (h : Place.lift^[n] p = .bound i) : n ≤ i := by
  induction n generalizing i with
  | zero => exact Nat.zero_le i
  | succ n ih =>
    rw [Function.iterate_succ_apply'] at h
    cases hp : Place.lift^[n] p with
    | free v =>
      rw [hp] at h
      cases h
    | bound j =>
      rw [hp, Place.lift] at h
      injection h with h
      have := ih hp
      omega

/-- Nothing but a variable that is bound stands for one of the innermost lambdas'. -/
theorem mem_of_bindAll_eq_bound {vs : List Variable} {i : Nat} (hi : i < vs.length)
    (h : e.bindAll vs w = .bound i) : w ∈ vs := by
  by_contra hw
  rw [bindAll_of_not_mem hw] at h
  have := le_of_lift_iterate_eq_bound h
  omega

/-- Which of some distinct variables stands for which lambda's. -/
theorem bindAll_eq_bound_iff {vs : List Variable} (hvs : vs.Nodup) {i : Nat} (hi : i < vs.length) :
    e.bindAll vs w = .bound (vs.length - 1 - i) ↔ w = vs[i] := by
  constructor
  · intro h
    obtain ⟨j, hj, rfl⟩ := List.mem_iff_getElem.mp (mem_of_bindAll_eq_bound (by omega) h)
    rw [bindAll_getElem hvs hj] at h
    injection h with h
    congr 1
    omega
  · rintro rfl
    exact bindAll_getElem hvs hi e

/-- The variables that are bound are those that stand for the innermost lambdas'. -/
theorem mem_iff_bindAll {vs : List Variable} (hvs : vs.Nodup) :
    w ∈ vs ↔ ∃ i < vs.length, e.bindAll vs w = .bound i := by
  constructor
  · intro h
    obtain ⟨j, hj, rfl⟩ := List.mem_iff_getElem.mp h
    exact ⟨_, by omega, bindAll_getElem hvs hj e⟩
  · rintro ⟨i, hi, h⟩
    exact mem_of_bindAll_eq_bound hi h

end Places

/-- A term without the names of bound variables and the identities of applications. -/
inductive Skeleton where
  | var (p : Place)
  | native (c : Native)
  | foreign (x : Foreign)
  /-- A terminal name. -/
  | named (info : NameInfo) (definition : Term)
  | lam (body : Skeleton)
  | app (head : Skeleton) (args : List Skeleton)

namespace Skeleton

instance : Inhabited Skeleton := ⟨native .I⟩

/-- The literal of a number. -/
abbrev numeral (n : Nat) : Skeleton := native (.numeral n)

mutual

/-- The skeleton with its places moved. -/
def move (r : Place → Place) : Skeleton → Skeleton
  | var p => var (r p)
  | native c => native c
  | foreign x => foreign x
  | named info d => named info d
  | lam b => lam (move (Place.under r) b)
  | app h as => app (move r h) (moveAll r as)

/-- The skeletons of a list with their places moved. -/
def moveAll (r : Place → Place) : List Skeleton → List Skeleton
  | [] => []
  | a :: as => move r a :: moveAll r as

end

theorem moveAll_append (r : Place → Place) (xs ys : List Skeleton) :
    moveAll r (xs ++ ys) = moveAll r xs ++ moveAll r ys := by
  induction xs with
  | nil => rfl
  | cons x xs ih => rw [List.cons_append, moveAll, moveAll, ih, List.cons_append]

/-- The skeleton as it is written below one more lambda. -/
def lift (x : Skeleton) : Skeleton := x.move Place.lift

end Skeleton

namespace Term

mutual

/-- The skeleton of a term whose free variables stand at some places. -/
def skeleton (e : Places) : Term → Skeleton
  | var v => .var (e v)
  | native c => .native c
  | foreign x => .foreign x
  | named info d => if info.isTerminal then .named info d else skeleton e d
  | lam v b => .lam (skeleton (e.bind v) b)
  | app _ h as => .app (skeleton e h) (skeletons e as)

/-- The skeletons of the terms of a list. -/
def skeletons (e : Places) : List Term → List Skeleton
  | [] => []
  | a :: as => skeleton e a :: skeletons e as

end

/-- Terms that coincide up to the names of bound variables, with every name that is not terminal
read as its definition in place. -/
def SameSkeleton (t u : Term) : Prop := t.skeleton .free = u.skeleton .free

variable {e e' : Places} {v : Variable}

theorem skeletons_eq_map (e : Places) (ts : List Term) : skeletons e ts = ts.map (skeleton e) := by
  induction ts with
  | nil => rfl
  | cons t ts ih => rw [skeletons, ih, List.map_cons]

/-- Skeletons are taken part by part. -/
theorem skeletons_append (e : Places) (ts us : List Term) :
    skeletons e (ts ++ us) = skeletons e ts ++ skeletons e us := by
  rw [skeletons_eq_map, skeletons_eq_map, skeletons_eq_map, List.map_append]

@[simp] theorem length_skeletons (e : Places) (ts : List Term) :
    (skeletons e ts).length = ts.length := by
  rw [skeletons_eq_map, List.length_map]

mutual

/-- Only the places of the variables that occur matter. -/
theorem skeleton_congr : ∀ {t : Term} {e e' : Places}, (∀ v, t.occurs v = true → e v = e' v) →
    t.skeleton e = t.skeleton e'
  | var v, _, _, h => by
    rw [skeleton, skeleton, h v (by simp [occurs])]
  | native _, _, _, _ => rfl
  | foreign _, _, _, _ => rfl
  | named info d, _, _, h => by
    rw [skeleton, skeleton, skeleton_congr fun v hv => h v (by rwa [occurs])]
  | lam v b, _, _, h => by
    rw [skeleton, skeleton, skeleton_congr]
    intro w hw
    by_cases hwv : w = v
    · simp [hwv]
    · rw [Places.bind_of_ne hwv, Places.bind_of_ne hwv, h w]
      simp [occurs, hw, Ne.symm hwv]
  | app _ hd as, _, _, h => by
    rw [skeleton, skeleton, skeleton_congr fun v hv => h v (by simp [occurs, hv]),
      skeletons_congr fun v hv => h v (by simp [occurs, hv])]

theorem skeletons_congr : ∀ {ts : List Term} {e e' : Places},
    (∀ v, occursAny v ts = true → e v = e' v) → skeletons e ts = skeletons e' ts
  | [], _, _, _ => rfl
  | _ :: _, _, _, h => by
    rw [skeletons, skeletons, skeleton_congr fun v hv => h v (by simp [occursAny, hv]),
      skeletons_congr fun v hv => h v (by simp [occursAny, hv])]

end

mutual

/-- Moving the places of the variables moves the skeleton. -/
theorem skeleton_comp (r : Place → Place) : ∀ (t : Term) (e : Places),
    t.skeleton (r ∘ e) = (t.skeleton e).move r
  | var _, _ => rfl
  | native _, _ => rfl
  | foreign _, _ => rfl
  | named info d, e => by
    rw [skeleton, skeleton, skeleton_comp r d e]
    split <;> rfl
  | lam v b, e => by
    rw [skeleton, skeleton, Places.comp_bind, skeleton_comp _ b, Skeleton.move]
  | app _ hd as, e => by
    rw [skeleton, skeleton, skeleton_comp r hd e, skeletons_comp r as e, Skeleton.move]

theorem skeletons_comp (r : Place → Place) : ∀ (ts : List Term) (e : Places),
    skeletons (r ∘ e) ts = Skeleton.moveAll r (skeletons e ts)
  | [], _ => rfl
  | t :: ts, e => by
    rw [skeletons, skeletons, skeleton_comp r t e, skeletons_comp r ts e, Skeleton.moveAll]

end

/-- Below a lambda whose variable does not occur, a term is as it was. -/
theorem skeleton_bind {t : Term} (h : t.occurs v = false) (e : Places) :
    t.skeleton (e.bind v) = (t.skeleton e).lift := by
  rw [Skeleton.lift, ← skeleton_comp]
  refine skeleton_congr fun w hw => Places.bind_of_ne ?_
  rintro rfl
  rw [h] at hw
  cases hw

end Term

end Combinatory
