import Combinatory.Proofs.Assembly
import Combinatory.Proofs.Replacement
import Mathlib.Data.List.Nodup

/-!
# Lambdas over several variables

A lambda over a list of variables is made of one lambda after another, from the inside out, and each
time the binders inside are made anew. Its profile has what is exposed of the body, for all of the
variables, below as many lambdas (`gives_abstractAll_exposed`). When it is applied, the arguments
are passed one after another to bodies that hold the earlier ones already. What is passed is never
caught by a lambda that is left, and never replaced later, so in the end all arguments are in place
as if they had been put there at once (`put_beneathAll_passAll`).
-/

namespace Combinatory

open Engine (Attains Gives)
open Function (update)

/-! ### One argument after another -/

namespace Skeleton

variable {τ : Place → Skeleton} {ρ ρ' : Variable → Skeleton} {vs ys : List Variable}
  {y w : Variable}

/-- What stands for the variables, seen below a lambda that binds one of them. -/
def beneath (ρ : Variable → Skeleton) (y : Variable) : Variable → Skeleton := fun w =>
  if w = y then var (.bound 0) else (ρ w).lift

/-- What stands for the variables, seen below lambdas that bind some of them. -/
def beneathAll (ρ : Variable → Skeleton) (ys : List Variable) : Variable → Skeleton :=
  ys.foldl beneath ρ

/-- What is put at the places when something stands for each free variable. -/
def standing (ρ : Variable → Skeleton) : Place → Skeleton
  | .bound i => var (.bound i)
  | .free w => ρ w

/-- What stands for the variables after some have been given values. -/
def assign (ρ : Variable → Skeleton) : List Variable → List Skeleton → Variable → Skeleton
  | y :: ys, a :: as => assign (update ρ y a) ys as
  | _, _ => ρ

/-- What is below some lambdas after as many arguments have been passed. -/
def passAll : List Skeleton → Skeleton → Except Failure Skeleton
  | [], x => pure x
  | a :: as, x => do passAll as (← x.put (under^[as.length] (passing a)))

theorem beneathAll_var (e : Places) (ys : List Variable) :
    beneathAll (var ∘ e) ys = var ∘ e.bindAll ys := by
  induction ys generalizing e with
  | nil => rfl
  | cons y ys ih =>
    have next : beneath (var ∘ e) y = var ∘ e.bind y := by
      funext w
      by_cases hw : w = y
      · simp [beneath, hw]
      · simp [beneath, hw, Places.bind_of_ne hw, lift, move]
    exact (congrArg (beneathAll · ys) next).trans (ih (e.bind y))

/-- What is put into what stands for the variables, is put into it below some lambdas as well. -/
theorem beneathAll_put (h : ∀ w, (ρ w).put τ = .ok (ρ' w)) (ys : List Variable) (w : Variable) :
    (beneathAll ρ ys w).put (under^[ys.length] τ) = .ok (beneathAll ρ' ys w) := by
  induction ys generalizing ρ ρ' τ with
  | nil => exact h w
  | cons y ys ih =>
    have next (w : Variable) : (beneath ρ y w).put (under τ) = .ok (beneath ρ' y w) := by
      unfold beneath
      split
      · rfl
      · exact lift_put (h w)
    exact ih next

/-- An argument takes the place of the variable of the lambda that it is passed to. -/
theorem beneath_put_passing (hρ : ∀ w, (ρ w).put var = .ok (ρ w)) (y : Variable) (a : Skeleton)
    (w : Variable) : (beneath ρ y w).put (passing a) = .ok (update ρ y a w) := by
  unfold beneath
  by_cases hw : w = y
  · rw [if_pos hw, hw, Function.update_self]
    rfl
  · have kept : passing a ∘ Place.lift = var := by
      funext p
      cases p <;> rfl
    rw [if_neg hw, Function.update_of_ne hw, lift, put_move, kept, hρ]

theorem put_close (k : Nat) (x : Skeleton) (σ : Place → Skeleton) :
    (close k x).put σ = do return close k (← x.put (under^[k] σ)) := by
  induction k generalizing σ with
  | zero => simp [close]
  | succ k ih => simp [close, put, ih, Function.iterate_succ_apply]

/-- A variable that gets no value keeps what stood for it. -/
theorem assign_of_not_mem (h : w ∉ ys) (ρ : Variable → Skeleton) (as : List Skeleton) :
    assign ρ ys as w = ρ w := by
  induction ys generalizing ρ as with
  | nil => rfl
  | cons y ys ih =>
    rw [List.mem_cons, not_or] at h
    cases as with
    | nil => rfl
    | cons a as => rw [assign, ih h.2, Function.update_of_ne h.1]

/-- To give values to distinct variables, one after another, is to replace them at once. -/
theorem assign_eq_replacing (hys : ys.Nodup) (hw : ρ w = var (.free w)) (as : List Skeleton) :
    assign ρ ys as w = replacing ys as (.free w) := by
  induction ys generalizing ρ as with
  | nil => exact hw
  | cons y ys ih =>
    obtain ⟨hy, hys⟩ := List.nodup_cons.mp hys
    cases as with
    | nil => exact hw
    | cons a as =>
      rw [assign, replacing]
      by_cases heq : w = y
      · subst heq
        rw [assign_of_not_mem hy, Function.update_self, if_pos rfl]
      · rw [ih hys (by rw [Function.update_of_ne heq, hw]), if_neg]
        rintro ⟨⟩
        exact heq rfl

end Skeleton

namespace Term

open Skeleton (assign beneathAll passAll passing standing under)

variable {R : Rules} {U : Prop} {V : Set Variable} {s s' : Store} {vs ys : List Variable}
  {ρ ρ' : Variable → Skeleton} {t u b : Term} {v w : Variable}

/-- What is put into a term in which something stands for each variable. -/
theorem put_standing (t : Term) (vs : List Variable) {τ : Place → Skeleton}
    (h : ∀ w, (ρ w).put τ = .ok (ρ' w)) :
    (t.exposed vs .free).put (standing ρ) >>= Skeleton.put τ =
      (t.exposed vs .free).put (standing ρ') := by
  let both : Place → Skeleton
    | .bound i => τ (.bound i)
    | .free w => ρ' w
  have put_both (p : Place) : (standing ρ p).put τ = .ok (both p) := by
    cases p with
    | bound i => rfl
    | free w => exact h w
  rw [Skeleton.put_put _ put_both]
  exact put_exposed_congr fun v _ => rfl

/-- Passing arguments to lambdas over some variables of a term gives the variables these values. -/
theorem put_beneathAll_passAll (t : Term) (vs : List Variable) {as : List Skeleton}
    (hlen : ys.length = as.length)
    (hρ : ∀ w, (ρ w).put .var = .ok (ρ w)) (has : ∀ a ∈ as, a.put .var = .ok a) :
    (t.exposed vs .free).put (standing (beneathAll ρ ys)) >>= passAll as =
      (t.exposed vs .free).put (standing (assign ρ ys as)) := by
  induction ys generalizing ρ as with
  | nil =>
    obtain rfl := List.length_eq_zero_iff.mp hlen.symm
    exact bind_pure _
  | cons y ys ih =>
    obtain ⟨a, as, rfl⟩ := List.exists_cons_of_length_eq_add_one hlen.symm
    rw [List.length_cons, List.length_cons, Nat.add_right_cancel_iff] at hlen
    have first := put_standing t vs
      (Skeleton.beneathAll_put (Skeleton.beneath_put_passing hρ y a) ys)
    have firm (w : Variable) : (update ρ y a w).put .var = .ok (update ρ y a w) := by
      by_cases hw : w = y
      · rw [hw, Function.update_self, has a List.mem_cons_self]
      · rw [Function.update_of_ne hw, hρ]
    rw [assign, ← ih hlen firm fun a ha => has a (List.mem_cons_of_mem _ ha), ← first, hlen,
      bind_assoc]
    rfl

/-! ### Closing a term over variables that its names mention -/

/-- What a body becomes when it is closed over one of its variables: a lambda of what is exposed of
the body. -/
structure Abstraction (U : Prop) (V : Set Variable) (s : Store) (v : Variable) (b u : Term) :
    Prop where
  regular : u.Regular U V s
  exposed : ∀ vs e, u.exposed vs e = .lam (b.exposed (v :: vs) (e.bind v))

/-- A body closed over a new variable, with the lambdas in it closed by any means. -/
private theorem gives_closed_exposed {reclose : Variable → Term → Engine Term} {depth : Nat}
    (hre : Rebinds U reclose depth) (hb : b.Regular U V s) (hd : b.lambdaDepth ≤ depth) :
    Gives (do
      let w ← Engine.freshVariable v.name
      return (w, (← replace R reclose b v (var w)).getD b)) s fun p s' =>
        Abstraction U V s' v b (lam p.1 p.2) := by
  apply (Engine.gives_freshVariable v.name s).bind
  rintro w s₁ hs₁ ⟨hfresh, hw⟩
  have other (x : Variable) (hx : b.occurs x = true) : x ≠ w := by
    rintro rfl
    exact hfresh (hb.minted hx)
  have clear (y : Variable) (hy : b.binds y = true) : (var w).occurs y = false := by
    refine decide_eq_false ?_
    rintro rfl
    exact hfresh (hb.minted_of_binds hy)
  have body : b.Regular U (insert w V) s₁ := (hb.insert_fresh hfresh).later hs₁
  -- the new variable is put at the place of the old one, and nothing can go wrong with it
  let e' : Places := update .free v (.free w)
  let σ : Place → Skeleton := fun p => .var (if p = .free v then .free w else p)
  have renamed : (b.exposed [v] .free).put σ = .ok (b.exposed [v] e') := by
    refine hb.put_exposed_of_vars fun x _ => congrArg Skeleton.var ?_
    by_cases hx : x = v <;> simp [e', hx]
  have value : (var w).Regular U (insert w V) s₁ := hw
  have set (x : Variable) (_ : b.occurs x = true) : Sets .free .free v (var w) σ x := by
    by_cases hx : x = v <;> simp [Sets, σ, hx, profile]
  have attained := attains_replace (R := R) hre b body value clear set hd
  rw [renamed] at attained
  apply Gives.bind attained
  rintro o s₂ hs₂ ⟨-, ho⟩
  refine .pure ⟨⟨hw.mono hs₂, ho.regular⟩, fun vs e => congrArg Skeleton.lam ?_⟩
  have kept (x : Variable) (_ : x ∉ V) (hx : x ∉ [v]) : e' x = .free x :=
    Function.update_of_ne (List.ne_of_not_mem_cons hx) _ _
  rw [← ho.regular.expose_profile, ho.profile, expose_exposed hb kept]
  refine hb.exposed_congr (fun _ _ _ => Iff.rfl) fun x hx => ?_
  by_cases hxv : x = v
  · simp [e', hxv, Places.settle]
  · have settled : e' x = .free x := Function.update_of_ne hxv _ _
    rw [Function.comp_apply, settled, Places.bind_of_ne hxv]
    exact Places.bind_of_ne (other x hx)

private theorem gives_closeWithin_exposed {depth : Nat} (hb : b.Regular U V s)
    (hd : b.lambdaDepth ≤ depth) :
    Gives (closeWithin R depth v b) s fun p s' => Abstraction U V s' v b (lam p.1 p.2) := by
  cases depth with
  | zero =>
    unfold closeWithin
    split
    · exact hb.elim
    · exact gives_closed_exposed (fun _ _ _ _ _ _ h => (Nat.not_lt_zero _ h).elim) hb hd
    · next h _ => cases h
  | succ depth =>
    unfold closeWithin
    split
    · exact hb.elim
    · next h _ => cases h
    · next h _ =>
      cases h
      refine gives_closed_exposed (fun W s₁ x c _ hc hd => ?_) hb hd
      apply (gives_closeWithin hc (Nat.le_of_lt_succ hd)).bind
      intro p s₂ _ hp
      exact .pure hp

private theorem gives_close_exposed (hb : b.Regular U V s) :
    Gives (close R v b) s fun p s' => Abstraction U V s' v b (lam p.1 p.2) :=
  gives_closeWithin_exposed hb (Nat.le_add_right _ _)

/-- The abstraction of a regular term, whose names may mention the variable. -/
theorem gives_abstract_exposed (v : Variable) (hb : b.Regular U V s) :
    Gives (abstract R v b) s fun u s' => Abstraction U V s' v b u := by
  apply (gives_close_exposed hb).bind
  intro p s₁ _ hp
  exact .pure hp

/-- The abstraction of a regular term over several variables has what is exposed of the term for all
of them below as many lambdas. -/
theorem gives_abstractAll_exposed (ys : List Variable) (hb : b.Regular U V s) :
    Gives (abstractAll R ys b) s fun u s' => u.Regular U V s' ∧
      ∀ vs e, u.exposed vs e = .close ys.length (b.exposed (ys ++ vs) (e.bindAll ys)) := by
  induction ys with
  | nil =>
    unfold abstractAll
    exact .pure ⟨hb, fun _ _ => rfl⟩
  | cons y ys ih =>
    unfold abstractAll
    apply ih.bind
    rintro c s₁ - ⟨hc, hexposed⟩
    apply (gives_abstract_exposed y hc).imp
    intro u s₂ _ hu
    refine ⟨hu.regular, fun vs e => ?_⟩
    rw [hu.exposed, hexposed, List.length_cons, Skeleton.close]
    refine congrArg (fun x => Skeleton.lam (.close ys.length x)) ?_
    refine hb.exposed_congr (fun v _ _ => ?_) fun v _ => rfl
    simp only [List.mem_append, List.mem_cons]
    tauto

/-! ### One step after another -/

/-- A number of steps, in each of which the head's rule is at work at a cost of one. -/
inductive Fires (R : Rules) : Nat → Term → Store → Term → Store → Prop
  | refl {t : Term} {s : Store} : Fires R 0 t s t s
  | step {k n : Nat} {h t u : Term} {as : List Term} {s s₁ s₂ : Store}
      (fires : reduce R h as s = .ok (some t) s₁)
      (step : Term.step R (app n h as) s = .ok (some ⟨t, 1⟩) s₁) (rest : Fires R k t s₁ u s₂) :
      Fires R (k + 1) (app n h as) s u s₂

/-- Whether the head's rule is at work in a number of steps, which lead to a term of a profile. Or
else there is a failure, and one of the steps fails for this cause. -/
def FiresTo (R : Rules) (k : Nat) (t : Term) (s : Store) : Except Failure Skeleton → Prop
  | .ok x => ∃ u s', Fires R k t s u s' ∧ u.profile .free = x
  | .error e => ∃ j < k, ∃ u s₁ s₂, Fires R j t s u s₁ ∧ u.step R s₁ = .error e s₂

variable {k n : Nat} {h l : Term} {as bs ts : List Term} {r : Except Failure Skeleton}
  {x : Skeleton} {Γ : Scope}

/-- What comes after a step at the head comes one step later. -/
theorem FiresTo.cons (hn : n ∉ s.settled) (fires : reduce R h as s = .ok (some t) s')
    (rest : FiresTo R k t s' r) : FiresTo R (k + 1) (app n h as) s r := by
  have step := step_app_of_reduce hn fires
  cases r with
  | ok x =>
    obtain ⟨u, s₁, hu, hx⟩ := rest
    exact ⟨u, s₁, .step fires step hu, hx⟩
  | error e =>
    obtain ⟨j, hj, u, s₁, s₂, hu, he⟩ := rest
    exact ⟨j + 1, Nat.succ_lt_succ hj, u, s₁, s₂, .step fires step hu, he⟩

/-- A head whose rule fails makes the first step fail. -/
theorem firesTo_of_error {e : Failure} (hn : n ∉ s.settled) (hr : reduce R h as s = .error e s') :
    FiresTo R (k + 1) (app n h as) s (.error e) := by
  refine ⟨0, k.succ_pos, _, s, s', .refl, ?_⟩
  rw [step, Engine.bind_of_ok (Engine.isSettled_of_not_mem hn), if_neg Bool.false_ne_true,
    Engine.bind_of_error hr]

/-- Where the head's rule attains a profile, one step does. -/
theorem firesTo_one (hn : n ∉ s.settled)
    (hr : Attains (reduce R h as) s r fun x o _ => ∃ u, o = some u ∧ u.profile .free = x) :
    FiresTo R 1 (app n h as) s r := by
  cases r with
  | ok x =>
    obtain ⟨_, s', hr, -, -, -, u, rfl, hx⟩ := hr
    exact .cons hn hr ⟨u, s', .refl, hx⟩
  | error e =>
    obtain ⟨s', hr⟩ := hr
    exact firesTo_of_error hn hr

/-- A regular term of a scope. -/
structure Placed (Γ : Scope) (s : Store) (t : Term) : Prop where
  regular : t.Regular True ∅ s
  fits : t.Fits Γ s

namespace Placed

theorem later (ht : t.Placed Γ s) (hs : s ≤ s') : t.Placed Γ s' :=
  ⟨ht.regular.later hs, ht.fits.later hs⟩

theorem fitsAll (hts : ∀ t ∈ ts, t.Placed Γ s) : FitsAll Γ s ts :=
  fitsAll_iff.mpr fun t ht => (hts t ht).fits

/-- No term of a scope binds a variable of another one. -/
theorem clear (hΓ : Γ.Sealed s) (ht : t.Placed Γ s) (hu : u.Placed Γ s) (y : Variable)
    (hy : t.binds y = true) : u.occurs y = false := by
  rw [← Bool.not_eq_true]
  exact fun hocc => (ht.fits.of_binds hy).1 (hΓ.visible y (hu.fits.visible hocc))

end Placed

/-- The body of a lambda with an argument in place of its variable, both of a scope. -/
theorem attains_placed (hΓ : Γ.Sealed s) {a : Term} (hlam : (lam v b).Placed Γ s)
    (ha : a.Placed Γ s) :
    Attains (instantiate R v b a) s
      ((b.profile (.bind .free v)).put (Skeleton.passing (a.profile .free)))
      fun x u s' => u.Placed Γ s' ∧ u.profile .free = x := by
  apply ((attains_instantiate hlam.regular ha.regular (hlam.clear hΓ ha) .free).ensured
    (ensures_instantiate (η := True) R hΓ hlam.fits ha.fits)).imp
  rintro x u s' - ⟨⟨regular, profile⟩, means⟩
  exact ⟨⟨regular, means.fits⟩, profile⟩

/-- A lambda that is applied to something is put at the head. -/
private theorem apply_lam (R : Rules) (v : Variable) (b : Term) (hne : as ≠ [])
    (has : FitsAll Γ s as) (s' : Store) :
    apply R (lam v b) as s' =
      .ok (app s'.nextNode (lam v b) as) { s' with nextNode := s'.nextNode + 1 } := by
  obtain ⟨a, as, rfl⟩ := List.exists_cons_of_ne_nil hne
  rw [apply_eq_extend _ _ has.firstLiteral_eq_none]
  rfl

/-- What is left of a lambda after its argument has been passed is applied to the others. -/
private theorem reduce_lam {a l' : Term} {s₁ s₂ : Store}
    (passed : instantiate R v b a s = .ok l s₁) (applied : apply R l as s₁ = .ok l' s₂) :
    reduce R (lam v b) (a :: as) s = .ok (some l') s₂ := by
  rw [reduce, Engine.bind_of_ok passed, Engine.bind_of_ok applied]
  rfl

/-- Lambdas that have just been applied to some arguments, and others, are passed the former one by
one, and what is left of them is applied to the latter. -/
theorem firesTo_passAll (hΓ : Γ.Sealed s) (sane : s.Sane) (hn : n ∉ s.settled) (hl : l.Placed Γ s)
    (has : ∀ a ∈ as, a.Placed Γ s) (hbs : ∀ b ∈ bs, b.Placed Γ s) (hne : as ≠ [])
    (profile : l.profile .free = .close as.length x) :
    FiresTo R as.length (app n l (as ++ bs)) s
      (passAll (profiles .free as) x >>= (·.apply (profiles .free bs))) := by
  induction as generalizing s n l x with
  | nil => exact absurd rfl hne
  | cons a as ih =>
    rw [List.forall_mem_cons] at has
    obtain ⟨v, b, rfl, hb⟩ := exists_lam_of_profile profile
    have passed := attains_placed (R := R) hΓ hl has.1
    cases as with
    | nil =>
      -- the last argument is passed, and what comes of it is applied to the others
      have hb : b.profile (.bind .free v) = x := hb
      have last : passAll (profiles .free [a]) x = x.put (Skeleton.passing (a.profile .free)) :=
        bind_pure _
      rw [hb] at passed
      rw [last]
      refine firesTo_one hn ?_
      rw [List.singleton_append, reduce]
      refine passed.bind fun y u s₁ hs hu => .map ?_
      have regular : RegularAll True ∅ s₁ bs :=
        regularAll_iff.mpr fun b hb => (hbs b hb).regular.later hs
      rw [← hu.2]
      exact (attains_apply hu.1.regular regular).imp fun _ _ _ _ hw => ⟨_, rfl, hw.profile⟩
    | cons a' as =>
      rw [hb, Skeleton.put_close] at passed
      rw [profiles, passAll, length_profiles, bind_assoc]
      cases hput : x.put (under^[(a' :: as).length] (Skeleton.passing (a.profile .free))) with
      | error e =>
        rw [hput] at passed
        obtain ⟨s₁, failed⟩ := passed
        have fails : reduce R (lam v b) (a :: (a' :: as) ++ bs) s = .error e s₁ := by
          rw [List.cons_append, reduce]
          exact Engine.bind_of_error failed
        exact firesTo_of_error hn fails
      | ok y =>
        rw [hput] at passed
        obtain ⟨u, s₁, hu, hs, hnodes, htable, placed, inner⟩ := passed
        obtain ⟨w, c, rfl, -⟩ := exists_lam_of_profile inner
        have sane₁ : s₁.Sane := sane.of_settled_eq hnodes htable
        -- a lambda is left, which is applied to the other arguments
        have applied := apply_lam R w c (List.cons_ne_nil a' (as ++ bs))
          (fitsAll_append.mpr ⟨Placed.fitsAll has.2, Placed.fitsAll hbs⟩) s₁
        exact .cons hn (reduce_lam hu applied)
          (ih (hΓ.later hs) (sane₁.of_settled_eq (Nat.le_succ _) rfl)
            (sane₁.not_mem_settled (Nat.le_refl _)) (placed.later (Int.le_refl _))
            (fun a ha => (has.2 a ha).later hs) (fun b hb => (hbs b hb).later hs)
            (List.cons_ne_nil _ _) inner)

/-- To pass arguments to lambdas over some variables of a body replaces them all at once. -/
theorem passAll_exposed (hb : b.Regular U V s) {xs : List Variable} (hxs : xs.Nodup)
    (has : ∀ a ∈ as, a.Regular U V s) (hlen : xs.length = as.length) :
    passAll (profiles .free as) (b.exposed xs (Places.bindAll .free xs)) = b.replaced xs as := by
  have outside : (b.exposed xs .free).put (standing (beneathAll (.var ∘ .free) xs)) =
      .ok (b.exposed xs (Places.bindAll .free xs)) :=
    hb.put_exposed_of_vars fun w _ => congrFun (Skeleton.beneathAll_var .free xs) w
  have firm (a : Skeleton) (ha : a ∈ profiles .free as) : a.put .var = .ok a := by
    rw [profiles_eq_map] at ha
    obtain ⟨t, ht, rfl⟩ := List.mem_map.mp ha
    exact (has t ht).put_profile
  have lengths : xs.length = (profiles .free as).length := by rw [hlen, length_profiles]
  have free (w : Variable) : ((.var ∘ .free : Variable → Skeleton) w).put .var =
      .ok ((.var ∘ .free : Variable → Skeleton) w) := rfl
  have passed := put_beneathAll_passAll b xs lengths free firm
  rw [outside] at passed
  refine passed.trans (put_exposed_congr fun w _ => ?_)
  exact Skeleton.assign_eq_replacing hxs rfl _

end Term

/-- A lambda over a list of variables with distinct names puts its arguments in place of all of them
at once, also where the arguments mention the variables. Applied to one argument for each variable,
and to others, it takes as many steps, each of them the rule of the head at work at a cost of one.
They lead to the body with the arguments in place of the variables, applied to the others. Names
that mention one of the variables have given way to their definitions, and every application is
built again by applying. There is a step for each variable unless a numeral gets too long. -/
theorem Builds.firesTo_lambdaOver {s : Store} {ts : List Term} (h : Builds s ts) (R : Rules)
    {xs : List Variable} (hxs : ∀ x ∈ xs, .var x ∈ ts) (hne : xs ≠ [])
    (names : (xs.map Variable.name).Nodup) {body : Term} (hbody : body ∈ ts) {as bs : List Term}
    (hlen : xs.length = as.length)
    (has : ∀ a ∈ as, a ∈ ts) (hbs : ∀ b ∈ bs, b ∈ ts) :
    ∃ l s₁, Term.lambdaOver R true (xs.map .var) body s = .ok l s₁ ∧ s ≤ s₁ ∧
      (s.Sane → s₁.Sane) ∧
      ∀ s₂, s₁ ≤ s₂ → s₂.Sane → ∃ t s₃, l.apply R (as ++ bs) s₂ = .ok t s₃ ∧
        t.FiresTo R xs.length s₃
          (body.replaced xs as >>= (·.apply (Term.profiles .free bs))) ∧
        OnlyTooLong (body.replaced xs as >>= (·.apply (Term.profiles .free bs))) := by
  obtain ⟨F, sealed, fits⟩ := h.exists_scope
  have placed (t : Term) (ht : t ∈ ts) : t.Placed (.ofFree F) s :=
    ⟨h.assembled.regular ht, Term.fitsAll_iff.mp fits t ht⟩
  have binders : Term.FitsAll (.ofFree F) s (xs.map .var) := by
    refine Term.fitsAll_iff.mpr fun t ht => ?_
    obtain ⟨x, hx, rfl⟩ := List.mem_map.mp ht
    exact (placed _ (hxs x hx)).fits
  have given := Term.gives_abstractAll_exposed (R := R) xs (placed body hbody).regular
  rw [← Term.lambdaOver_eq_abstractAll hne names] at given
  obtain ⟨l, s₁, hl, hs, hnodes, htable, ⟨regular, exposed⟩, lfits⟩ := given.ensured
    (Term.ensures_fits_lambdaOver R sealed.minted binders (placed body hbody).fits)
  refine ⟨l, s₁, hl, hs, fun sane => sane.of_settled_eq hnodes htable, fun s₂ hs₂ sane => ?_⟩
  have hs₂' := Store.le_trans hs hs₂
  obtain ⟨a, as, rfl⟩ := List.exists_cons_of_length_pos
    (hlen ▸ List.length_pos_of_ne_nil hne : 0 < as.length)
  have profile : l.profile .free =
      .close (a :: as).length (body.exposed xs (Places.bindAll .free xs)) := by
    have inner := exposed [] .free
    rwa [regular.exposed_nil, List.append_nil, hlen] at inner
  obtain ⟨v, b, rfl, -⟩ := Term.exists_lam_of_profile profile
  have lambda : (Term.lam v b).Placed (.ofFree F) s₂ :=
    (Term.Placed.mk regular lfits).later hs₂
  have args (a : Term) (ha : a ∈ _) : a.Placed (.ofFree F) s₂ := (placed a (has a ha)).later hs₂'
  have others (b : Term) (hb : b ∈ bs) : b.Placed (.ofFree F) s₂ :=
    (placed b (hbs b hb)).later hs₂'
  have applied := Term.apply_lam R v b (List.cons_ne_nil a (as ++ bs))
    (Term.fitsAll_append.mpr ⟨Term.Placed.fitsAll args, Term.Placed.fitsAll others⟩) s₂
  refine ⟨_, _, applied, ?_, (Term.onlyTooLong_replaced _ _ _).bind fun y =>
    Skeleton.onlyTooLong_apply y _⟩
  rw [hlen, ← Term.passAll_exposed (placed body hbody).regular (List.Nodup.of_map _ names)
    (fun a ha => (placed a (has a ha)).regular) hlen]
  exact Term.firesTo_passAll (sealed.later hs₂') (sane.of_settled_eq (Nat.le_succ _) rfl)
    (sane.not_mem_settled (Nat.le_refl _)) (lambda.later (Int.le_refl _))
    (fun a ha => (args a ha).later (Int.le_refl _))
    (fun b hb => (others b hb).later (Int.le_refl _)) (List.cons_ne_nil _ _) profile

namespace Builds

namespace Swapping

/-- A variable. -/
def x : Variable := ⟨"x", 1⟩

/-- Another variable. -/
def y : Variable := ⟨"y", 2⟩

/-- The application `y x`. -/
def body : Term := .app 0 (.var y) [.var x]

/-- What is at hand after it was built. -/
def terms : List Term := [body, .native .K, .var y, .var x]

/-- The store by then. -/
def store : Store := ⟨3, 1, ∅⟩

theorem builds : Builds store terms := by
  have named : Builds ⟨3, 0, ∅⟩ [.native .K, .var y, .var x] :=
    .native (.mint (.mint .start rfl) rfl) rfl
  exact named.applied (R := .undeclared) (f := .var y) (l := [.var x]) (by simp) rfl

theorem sane : store.Sane := .of_settled_eq_empty rfl

end Swapping

/-- The lambda over `x` and `y` of `y x` takes two steps on `y`, `x` and `K`. It puts each of the
first two in place of the other, which gives `x y K`. -/
theorem firesTo_swap : Builds Swapping.store Swapping.terms ∧ Swapping.store.Sane ∧
    ∃ l s₁ t s₂ u s₃,
      Term.lambdaOver Rules.undeclared true [.var Swapping.x, .var Swapping.y] Swapping.body
        Swapping.store = .ok l s₁ ∧
      l.apply Rules.undeclared [.var Swapping.y, .var Swapping.x, .native .K] s₁ = .ok t s₂ ∧
      Term.Fires Rules.undeclared 2 t s₂ u s₃ ∧
      u.profile .free = .app (.var (.free Swapping.x)) [.var (.free Swapping.y), .native .K] := by
  have binders : ∀ v ∈ [Swapping.x, Swapping.y], .var v ∈ Swapping.terms := by
    simp [Swapping.terms]
  have arguments : ∀ a ∈ [.var Swapping.y, .var Swapping.x], a ∈ Swapping.terms := by
    simp [Swapping.terms]
  have others : ∀ b ∈ [.native .K], b ∈ Swapping.terms := by simp [Swapping.terms]
  have body : Swapping.body ∈ Swapping.terms := List.mem_cons_self
  obtain ⟨l, s₁, hl, -, sane, applied⟩ := Swapping.builds.firesTo_lambdaOver Rules.undeclared
    binders (List.cons_ne_nil _ _) (by decide) body rfl arguments others
  obtain ⟨t, s₂, ht, fires, -⟩ := applied s₁ s₁.le_refl (sane Swapping.sane)
  have result : (Swapping.body.replaced [Swapping.x, Swapping.y]
      [.var Swapping.y, .var Swapping.x] >>= (·.apply (Term.profiles .free [.native .K]))) =
      .ok (.app (.var (.free Swapping.x)) [.var (.free Swapping.y), .native .K]) := rfl
  rw [result] at fires
  obtain ⟨u, s₃, hu, hprofile⟩ := fires
  exact ⟨Swapping.builds, Swapping.sane, l, s₁, t, s₂, u, s₃, hl, ht, hu, hprofile⟩

/-- A lambda that puts the longest numeral after the successor has no step. -/
theorem step_lambda_longest : ∃ l s₁ t s₂,
    Term.lambdaOver Rules.undeclared true [.var Swapping.x]
      (.app 0 (.native .successor) [.var Swapping.x]) Swapping.store = .ok l s₁ ∧
    l.apply Rules.undeclared [.numeral (Native.numeralBound - 1)] s₁ = .ok t s₂ ∧
    t.step Rules.undeclared s₂ = .error .numeralTooLong s₂ := by
  have long : ¬ Native.numeralBound - 1 + 1 < Native.numeralBound := by omega
  have unknown : 2 ∉ (∅ : Std.HashSet Nat) := Std.HashSet.not_mem_empty
  let z : Variable := ⟨"x", 3⟩
  let l : Term := .lam z (.app 1 (.native .successor) [.var z])
  let t : Term := .app 2 l [.numeral (Native.numeralBound - 1)]
  have fails : l.reduce Rules.undeclared [.numeral (Native.numeralBound - 1)] ⟨4, 3, ∅⟩ =
      .error .numeralTooLong ⟨4, 3, ∅⟩ := by
    rw [Term.reduce]
    exact Engine.bind_of_error (Engine.bind_of_error (Term.subst_successor_tooLong _ long _ _ _))
  refine ⟨l, ⟨4, 2, ∅⟩, t, ⟨4, 3, ∅⟩, by cbv, rfl, ?_⟩
  rw [Term.step, Engine.bind_of_ok (Engine.isSettled_of_not_mem unknown),
    if_neg Bool.false_ne_true, Engine.bind_of_error fails]

end Builds

end Combinatory
