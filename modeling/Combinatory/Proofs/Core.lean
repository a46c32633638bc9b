import Combinatory.Proofs.Renaming
import Mathlib.Data.List.Induction

/-!
# Cores of terms

The core of a term is what its skeleton comes to when every name is opened and every application
is taken apart into applications to one argument. A regular term without names can be read back from
its core as far as its skeleton goes (`skeleton_core`), so such terms are equal if they have the
same core. The core of any regular term can be told from its profile (`core_profile`), so what is
closed over a variable has the core of a lambda. Applying means application for cores, as long as it
is not the successor that is applied (`gives_apply_core`).
-/

namespace Combinatory

open Engine (Gives)

/-- A term without the names of bound variables, the identities of applications, and lists of
arguments. -/
inductive Core where
  | var (p : Place)
  | native (c : Native)
  | lam (body : Core)
  | app (front last : Core)
deriving DecidableEq, Repr

namespace Core

/-- A core applied to arguments one by one. -/
def apps (x : Core) (ys : List Core) : Core := ys.foldl app x

@[simp] theorem apps_nil (x : Core) : x.apps [] = x := rfl

@[simp] theorem apps_cons (x y : Core) (ys : List Core) :
    x.apps (y :: ys) = (app x y).apps ys := rfl

theorem apps_append (x : Core) (ys zs : List Core) : x.apps (ys ++ zs) = (x.apps ys).apps zs :=
  List.foldl_append

/-- The core with its places moved. -/
def move (r : Place → Place) : Core → Core
  | var p => var (r p)
  | native c => native c
  | lam b => lam (move (Place.under r) b)
  | app f a => app (move r f) (move r a)

theorem move_apps (r : Place → Place) (x : Core) (ys : List Core) :
    (x.apps ys).move r = (x.move r).apps (ys.map (move r)) := by
  induction ys generalizing x with
  | nil => rfl
  | cons y ys ih => simp [ih, move]

/-- The core as it is written below one more lambda. -/
def lift (x : Core) : Core := x.move Place.lift

end Core

/-- The skeleton applied to one more argument. -/
def Skeleton.snoc : Skeleton → Skeleton → Skeleton
  | app h as, y => app h (as ++ [y])
  | x, y => app x [y]

/-- The skeleton with all arguments of an application put together. -/
def Core.skeleton : Core → Skeleton
  | .var p => .var p
  | .native c => .native c
  | .lam b => .lam b.skeleton
  | .app f a => f.skeleton.snoc a.skeleton

/-- What is applied one by one is put together. -/
private theorem Core.skeleton_apps {x : Core} {ys : List Core} (hne : ys ≠ [])
    (hx : ∀ h as, x.skeleton ≠ .app h as) :
    (x.apps ys).skeleton = .app x.skeleton (ys.map Core.skeleton) := by
  induction ys using List.reverseRecOn with
  | nil => exact absurd rfl hne
  | append_singleton ys y ih =>
    rw [Core.apps_append, Core.apps_cons, Core.apps_nil, Core.skeleton, List.map_append,
      List.map_singleton]
    by_cases hys : ys = []
    · subst hys
      rw [Core.apps_nil, List.map_nil, List.nil_append]
      generalize x.skeleton = z at hx
      cases z with
      | app h as => exact absurd rfl (hx h as)
      | _ => rfl
    · rw [ih hys]
      rfl

namespace Term

variable {e : Places} {v : Variable}

mutual

/-- The core of a term whose free variables stand at some places. A name is read as its definition,
and a literal as the identity. -/
def core (e : Places) : Term → Core
  | var v => .var (e v)
  | native c => .native c
  | foreign _ => .native .I
  | named _ d => core e d
  | lam v b => .lam (core (e.bind v) b)
  | app _ h as => (core e h).apps (cores e as)

/-- The cores of the terms of a list. -/
def cores (e : Places) : List Term → List Core
  | [] => []
  | a :: as => core e a :: cores e as

end

theorem cores_eq_map (e : Places) (ts : List Term) : cores e ts = ts.map (core e) := by
  induction ts with
  | nil => rfl
  | cons t ts ih => rw [cores, ih, List.map_cons]

@[simp] theorem core_var : (var v).core e = .var (e v) := rfl

@[simp] theorem core_native {c : Native} : (native c).core e = .native c := rfl

@[simp] theorem core_named {info : NameInfo} {d : Term} : (named info d).core e = d.core e := rfl

@[simp] theorem core_lam {b : Term} : (lam v b).core e = .lam (b.core (e.bind v)) := rfl

@[simp] theorem core_app {n : Nat} {h : Term} {as : List Term} :
    (app n h as).core e = (h.core e).apps (as.map (core e)) := by
  rw [core, cores_eq_map]

mutual

/-- Only the places of the variables that occur matter. -/
theorem core_congr : ∀ {t : Term} {e e' : Places}, (∀ v, t.occurs v = true → e v = e' v) →
    t.core e = t.core e'
  | var v, _, _, h => by rw [core_var, core_var, h v (by simp [occurs])]
  | native _, _, _, _ => rfl
  | foreign _, _, _, _ => rfl
  | named _ d, _, _, h => core_congr (t := d) fun v hv => h v (by rwa [occurs])
  | lam v b, _, _, h => by
    rw [core_lam, core_lam, core_congr]
    intro w hw
    by_cases hwv : w = v
    · simp [hwv]
    · rw [Places.bind_of_ne hwv, Places.bind_of_ne hwv, h w]
      simp [occurs, hw, Ne.symm hwv]
  | app _ hd as, _, _, h => by
    rw [core, core, core_congr fun v hv => h v (by simp [occurs, hv]),
      cores_congr fun v hv => h v (by simp [occurs, hv])]

theorem cores_congr : ∀ {ts : List Term} {e e' : Places},
    (∀ v, occursAny v ts = true → e v = e' v) → cores e ts = cores e' ts
  | [], _, _, _ => rfl
  | _ :: _, _, _, h => by
    rw [cores, cores, core_congr fun v hv => h v (by simp [occursAny, hv]),
      cores_congr fun v hv => h v (by simp [occursAny, hv])]

end

mutual

/-- Moving the places of the variables moves the core. -/
theorem core_comp (r : Place → Place) : ∀ (t : Term) (e : Places),
    t.core (r ∘ e) = (t.core e).move r
  | var _, _ => rfl
  | native _, _ => rfl
  | foreign _, _ => rfl
  | named _ d, e => core_comp r d e
  | lam v b, e => by rw [core_lam, core_lam, Places.comp_bind, core_comp _ b, Core.move]
  | app _ hd as, e => by rw [core, core, core_comp r hd e, cores_comp r as e, Core.move_apps]

theorem cores_comp (r : Place → Place) : ∀ (ts : List Term) (e : Places),
    cores (r ∘ e) ts = (cores e ts).map (Core.move r)
  | [], _ => rfl
  | t :: ts, e => by rw [cores, cores, core_comp r t e, cores_comp r ts e, List.map_cons]

end

end Term

namespace Skeleton

mutual

/-- The core of a skeleton whose free variables stand at some places. -/
def core (e : Places) : Skeleton → Core
  | var p => .var (e.settle p)
  | native c => .native c
  | foreign _ => .native .I
  | named _ d => d.core e
  | lam b => .lam (core (Place.lift ∘ e) b)
  | app h as => (core e h).apps (cores e as)

/-- The cores of the skeletons of a list. -/
def cores (e : Places) : List Skeleton → List Core
  | [] => []
  | a :: as => core e a :: cores e as

end

end Skeleton

namespace Term

variable {R : Rules} {U : Prop} {V : Set Variable} {s : Store} {e : Places} {v : Variable}
  {t u : Term}

mutual

/-- The core of a regular term can be told from its profile: no name mentions a variable that is
bound around it. -/
theorem core_profile : ∀ {t : Term} {V : Set Variable} {e e' : Places}, t.Regular U V s →
    (∀ w, w ∉ V → e' w = .free w) → (t.profile e').core e = t.core (e.settle ∘ e')
  | var _, _, _, _, _, _ => rfl
  | native _, _, _, _, _, _ => rfl
  | foreign _, _, _, _, _, _ => rfl
  | named info d, V, e, e', ht, he => by
    rw [profile, Skeleton.core, core_named]
    refine core_congr fun w hw => ?_
    have outside : w ∉ V := by
      intro hV
      rw [ht.2.1 w hV] at hw
      cases hw
    rw [Function.comp_apply, he w outside]
    rfl
  | lam y b, V, e, e', ht, he => by
    have below (w : Variable) (hV : w ∉ insert y V) : e'.bind y w = .free w := by
      rw [Set.mem_insert_iff, not_or] at hV
      rw [Places.bind_of_ne hV.1, he w hV.2]
      rfl
    rw [profile, Skeleton.core, core_profile ht.2 below, Places.settle_comp_bind, core_lam]
  | app _ h as, _, _, _, ht, he => by
    rw [profile, Skeleton.core, core_profile ht.2.1 he, cores_profiles ht.2.2 he, core]

theorem cores_profiles : ∀ {ts : List Term} {V : Set Variable} {e e' : Places},
    RegularAll U V s ts → (∀ w, w ∉ V → e' w = .free w) →
      Skeleton.cores e (profiles e' ts) = cores (e.settle ∘ e') ts
  | [], _, _, _, _, _ => rfl
  | _ :: _, _, _, _, hts, he => by
    rw [profiles, Skeleton.cores, core_profile hts.1 he, cores_profiles hts.2 he, cores]

end

/-- What is closed over a variable has the core of a lambda over it. -/
theorem LambdaOf.core {b : Term} (h : LambdaOf U V s v b u) (hb : b.Regular U (insert v V) s)
    (e : Places) : u.core e = .lam (b.core (e.bind v)) := by
  have below (w : Variable) (hw : w ∉ insert v V) : Places.bind .free v w = .free w :=
    Places.bind_of_ne fun heq => hw (.inl heq)
  have whole : (u.profile .free).core e = u.core e := core_profile h.regular fun _ _ => rfl
  rw [← whole, h.profile, Skeleton.core, core_profile hb below, Places.settle_comp_bind]
  rfl

/-! ### Regular terms without names -/

mutual

/-- A regular term without names can be read back from its core. -/
theorem skeleton_core : ∀ {t : Term} {e : Places} {V : Set Variable}, t.Regular False V s →
    (t.core e).skeleton = t.skeleton e
  | var _, _, _, _ => rfl
  | native _, _, _, _ => rfl
  | foreign _, _, _, ht => ht.elim
  | named _ _, _, _, ht => ht.1.elim
  | lam v b, e, _, ht => by
    rw [core_lam, Core.skeleton, skeleton_core ht.2, skeleton]
  | app _ h as, e, _, ⟨hst, hh, has⟩ => by
    have head : (h.core e).skeleton = h.skeleton e := skeleton_core hh
    rw [core_app, Core.skeleton_apps (by simpa using hst.nonempty), head, skeleton,
      map_skeleton_core has]
    rw [head]
    exact hh.skeleton_ne_app hst.flat

theorem map_skeleton_core : ∀ {ts : List Term} {e : Places} {V : Set Variable},
    RegularAll False V s ts → (ts.map (core e)).map Core.skeleton = skeletons e ts
  | [], _, _, _ => rfl
  | t :: ts, e, _, hts => by
    rw [List.map_cons, List.map_cons, skeleton_core hts.1, map_skeleton_core hts.2, skeletons]

end

/-- Regular terms without names have the same skeleton if they have the same core. -/
theorem sameSkeleton_of_core (ht : t.Regular False V s) (hu : u.Regular False V s)
    (h : t.core .free = u.core .free) : SameSkeleton t u := by
  rw [SameSkeleton, ← skeleton_core ht, ← skeleton_core hu, h]

/-- Applying anything but the successor means application for the cores. -/
theorem gives_apply_core {as : List Term} (ht : t.Regular U V s) (has : RegularAll U V s as)
    (hsucc : t ≠ native .successor) :
    Gives (apply R t as) s fun u s' => u.Regular U V s' ∧
      ∀ e, u.core e = (t.core e).apps (as.map (core e)) := by
  suffices made : Gives (apply R t as) s fun u _ =>
      ∀ e, u.core e = (t.core e).apps (as.map (core e)) from
    (made.ensured (ensures_regular_apply ht has)).imp fun _ _ _ h => h.symm
  rw [apply_eq_extend R t has.firstLiteral_eq_none]
  cases as with
  | nil =>
    unfold extend
    exact .pure fun e => rfl
  | cons a as =>
    have stand : Gives (Engine.node t (a :: as)) s fun u _ =>
        ∀ e, u.core e = (t.core e).apps ((a :: as).map (core e)) := by
      apply (Engine.gives_node t (a :: as) s).imp
      rintro _ s' - ⟨n, rfl⟩ e
      exact core_app
    cases t with
    | app n h bs =>
      rw [extend_app]
      apply (Engine.gives_node h (bs ++ a :: as) s).imp
      rintro _ s' - ⟨m, rfl⟩ e
      rw [core_app, core_app, List.map_append, Core.apps_append]
    | native c =>
      have hc : c.hooked = false := by
        rw [← Bool.not_eq_true]
        exact fun hooked => hsucc (congrArg native (ht.1 hooked))
      rwa [extend_native R hc]
    | var v => rwa [extend_var]
    | lam v b => rwa [extend_lam]
    | foreign x => exact ht.elim
    | named info d => simpa only [extend] using stand

end Term

end Combinatory
