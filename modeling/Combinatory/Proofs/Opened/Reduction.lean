import Combinatory.Progress
import Combinatory.Proofs.Making
import Combinatory.Proofs.Meaning.Reduction
import Combinatory.Proofs.Opened
import Combinatory.Proofs.Settled.Strategy

/-!
# Steps of terms with transparent names

A name that waits for no arguments stands for its definition. A step of a term with such names
either opens a name, and leaves the term with all names opened as it is, or it is the step of the
term with all names opened (`ensures_opened_leftmost`). Where there is no step, the term with all
names opened has none either (`next_opened_of_idle`). The successor must not occur, since a name
would hide a numeral from it.
-/

namespace Combinatory

open Engine (Ensures)

namespace Skeleton

/-! ### Steps of skeletons -/

/-- What a combinator other than the successor makes of its arguments, or `none` if they are too
few. -/
def fire (c : Native) (args : List Skeleton) : Option Skeleton :=
  match c, args with
  | .I, x :: _ => some x
  | .K, x :: _ :: _ => some x
  | .S, x :: y :: z :: _ => some (x.extend [z, y.extend [z]])
  | .B, x :: y :: z :: _ => some (x.extend [y.extend [z]])
  | .C, x :: y :: z :: _ => some (x.extend [z, y])
  | .W, x :: y :: _ => some (x.extend [y, y])
  | .numeral n, f :: x :: _ => some ((fun y => f.extend [y])^[n] x)
  | _, _ => none

/-- What a head makes of its arguments, or `none` if it has no rule for them. -/
def reduct (head : Skeleton) (args : List Skeleton) : Option Skeleton :=
  match head, args with
  | native c, args => (fire c args).map (·.extend (args.drop c.arity))
  | lam b, a :: as => some ((b.fill (passing a)).extend as)
  | _, _ => none

mutual

/-- One step of a skeleton whose heads are no applications, or `none` if there is none. -/
def next : Skeleton → Option Skeleton
  | app h as => (reduct h as).or ((nextAmong as).map h.extend)
  | _ => none

/-- One step of the first skeleton that has one. -/
def nextAmong : List Skeleton → Option (List Skeleton)
  | [] => none
  | a :: as =>
    match next a with
    | some a' => some (a' :: as)
    | none => (nextAmong as).map (a :: ·)

end

/-- A combinator with too few arguments does not fire. -/
theorem fire_of_lt {c : Native} {xs : List Skeleton} (h : xs.length < c.arity) :
    fire c xs = none := by
  unfold fire
  split <;> simp_all [Native.arity] <;> omega

/-- Whether a skeleton is at home at the head of an application: it is none, and not the
successor. -/
structure IsHead (x : Skeleton) : Prop where
  flat : ∀ g bs, x ≠ app g bs
  plain : x ≠ native .successor

/-- Where a head does not fire, an argument takes the step. -/
theorem IsHead.next_extend {x : Skeleton} (h : x.IsHead) (as : List Skeleton) :
    (x.extend as).next = (reduct x as).or ((nextAmong as).map x.extend) := by
  cases as with
  | nil =>
    have still : x.next = none := by
      cases x with
      | app g bs => exact absurd rfl (h.flat g bs)
      | _ => simp [next]
    have bare : reduct x [] = none := by
      cases x with
      | native c =>
        have few : fire c [] = none := fire_of_lt c.arity_pos
        rw [reduct, few, Option.map_none]
      | _ => rfl
    rw [extend_nil, still, bare, nextAmong]
    rfl
  | cons a as =>
    rw [extend_of_unmet h.flat fun hs => absurd hs h.plain, next]

end Skeleton

/-- Whether names, as far as there are any, wait for no arguments, and combinators other than the
successor stand for lambda terms. -/
structure Kinds.Transparent (K : Kinds) : Prop where
  native : ∀ c, K.native c → c.isPure = true ∧ c ≠ .successor
  name : ∀ info, K.name info → info.arity = .number 0
  flat : ¬ K.nested

namespace Kinds

variable {K : Kinds}

/-- No rules lead out of such terms. -/
theorem Transparent.closed (h : K.Transparent) (R : Rules) : K.Closed R :=
  closed_of_isPure R (fun c hc => (h.native c hc).1) (fun hs => absurd rfl (h.native _ hs).2)
    fun info hinfo => ⟨0, by rw [h.name info hinfo]; rfl⟩

/-- Nothing fails that is done to such terms. -/
theorem Transparent.not_obstacle (h : K.Transparent) (e : Failure) : ¬ K.Obstacle e :=
  fun he => (h.native _ he.2).2 rfl

end Kinds

variable {K : Kinds} {R : Rules} {Γ : Scope} {s : Store} {e : Places}

namespace Native

open Term (Fits FitsAll opened openedAll)

theorem ensures_opened_iterate {f : Term} (hf : f.Fits Γ s) (e : Places) (n : Nat) (x : Term) :
    Ensures (iterate R f x n) s fun u _ =>
      u.opened e = (fun y => (f.opened e).extend [y])^[n] (x.opened e) := by
  induction n generalizing s x with
  | zero => exact .pure rfl
  | succ n ih =>
    unfold iterate
    apply (Term.ensures_opened_apply hf [x]).bind
    intro y s₁ hs hy
    apply (ih (hf.later hs) y).imp
    intro u s₂ _ hu
    rw [hu, hy, Function.iterate_succ_apply]
    rfl

/-- An application that ends a rule. -/
private theorem ensures_opened_some {t : Term} {as : List Term} {xs : List Skeleton}
    (ht : t.Fits Γ s) (has : openedAll e as = xs) :
    Ensures (do return some (← Term.apply R t as)) s fun o _ =>
      some ((t.opened e).extend xs) = o.map (opened e) := by
  apply (Term.ensures_opened_apply ht as).bind
  intro u s₁ _ hu
  refine .pure ?_
  rw [Option.map_some, hu, has]

/-- The rule of a combinator other than the successor opens what it makes of its arguments. -/
theorem ensures_opened_contract {c : Native} (hc : c.isPure = true) (hne : c ≠ .successor)
    {args : List Term} (hargs : FitsAll Γ s args) (e : Places) :
    Ensures (c.contract R args) s fun o _ =>
      Skeleton.fire c (openedAll e args) = o.map (opened e) := by
  have demanded (parts : List Term) (h : ∀ a ∈ parts, a ∈ args) :
      demandTerms parts = pure () := by
    have fits : FitsAll Γ s parts :=
      Term.fitsAll_iff.mpr fun a ha => Term.fitsAll_iff.mp hargs a (h a ha)
    rw [demandTerms, fits.firstLiteral_eq_none]
  unfold contract
  split
  · exact .pure rfl
  · exact .pure rfl
  · next x y z rest =>
    obtain ⟨hx, hy, hz, -⟩ := hargs
    rw [demanded [x, y] (by simp), pure_bind]
    apply (Term.ensures_opened_apply hy [z]).bind
    intro yz s₁ hs hyz
    refine ensures_opened_some (hx.later hs) ?_
    rw [openedAll, openedAll, openedAll, hyz]
    rfl
  · next x y z rest =>
    obtain ⟨hx, hy, hz, -⟩ := hargs
    rw [demanded [x, y] (by simp), pure_bind]
    apply (Term.ensures_opened_apply hy [z]).bind
    intro yz s₁ hs hyz
    refine ensures_opened_some (hx.later hs) ?_
    rw [openedAll, openedAll, hyz]
    rfl
  · next x y z rest =>
    rw [demanded [x] (by simp), pure_bind]
    exact ensures_opened_some hargs.1 rfl
  · next x y rest =>
    rw [demanded [x] (by simp), pure_bind]
    exact ensures_opened_some hargs.1 rfl
  · exact absurd rfl hne
  · next n f x rest =>
    apply (ensures_opened_iterate hargs.1 e n x).bind
    intro u s₁ _ hu
    refine .pure ?_
    rw [Option.map_some, hu]
    rfl
  · cases hc
  · cases hc
  · cases hc
  · -- no rule matches, so some argument is missing
    have few : (openedAll e args).length < c.arity := by
      rw [Term.openedAll_eq_map, List.length_map]
      cases c <;> rcases args with _ | ⟨x, _ | ⟨y, _ | ⟨z, args⟩⟩⟩ <;> grind [Native.arity]
    exact .pure (Skeleton.fire_of_lt few)

end Native

namespace Term

variable {t : Term} {as : List Term}

/-! ### Terms without a step -/

/-- A head that waits for more arguments does nothing once its name is opened, either. -/
theorem isHead_of_waits (hK : K.Transparent) {h : Term} (hh : h.MadeOf K) (hflat : h.isApp = false)
    (hw : Waits h as) (e : Places) :
    (h.opened e).IsHead ∧ (h.opened e).reduct (openedAll e as) = none ∧ h.Idle := by
  cases h with
  | var v => exact ⟨⟨nofun, nofun⟩, rfl, trivial⟩
  | native c =>
    obtain ⟨-, hne⟩ := hK.native c hh
    refine ⟨⟨nofun, fun hc => hne (by injection hc)⟩, ?_, trivial⟩
    have few : (openedAll e as).length < c.arity := by
      rw [openedAll_eq_map, List.length_map]
      exact hw
    rw [opened, Skeleton.reduct, Skeleton.fire_of_lt few, Option.map_none]
  | foreign x => exact hh.elim
  | named info d =>
    obtain ⟨n, hn, hlt⟩ := hw
    rw [hK.name info hh.1] at hn
    cases hn
    omega
  | lam v b =>
    obtain rfl : as = [] := hw
    exact ⟨⟨nofun, nofun⟩, rfl, trivial⟩
  | app n g bs => cases hflat

/-- The head of an application of such kinds is no application. -/
theorem isApp_head (hK : K.Transparent) {n : Nat} {h : Term} (made : (app n h as).MadeOf K) :
    h.isApp = false :=
  Bool.eq_false_iff.mpr fun happ => hK.flat (made.1 happ)

mutual

/-- An idle term has no step with all names opened. -/
theorem next_opened_of_idle (hK : K.Transparent) (e : Places) : ∀ {t : Term}, t.MadeOf K →
    t.Idle → (t.opened e).next = none
  | var v, _, _ => by simp [opened, Skeleton.next]
  | native c, _, _ => by simp [opened, Skeleton.next]
  | foreign x, h, _ => h.elim
  | named info d, made, hidle => by
    have isOpen : info.isOpen = true := by
      rw [NameInfo.isOpen, hK.name info made.1]
      rfl
    have closed : info.isOpen = false := hidle
    rw [isOpen] at closed
    cases closed
  | lam v b, _, _ => by simp [opened, Skeleton.next]
  | app n h as, made, ⟨hw, _, hidle⟩ => by
    obtain ⟨hhead, hred, -⟩ := isHead_of_waits hK made.2.1 (isApp_head hK made) hw e
    rw [opened, hhead.next_extend, hred, nextAmong_opened_of_idle hK e made.2.2 hidle]
    rfl

theorem nextAmong_opened_of_idle (hK : K.Transparent) (e : Places) : ∀ {as : List Term},
    MadeOfAll K as → IdleAll as → Skeleton.nextAmong (openedAll e as) = none
  | [], _, _ => rfl
  | a :: as, made, hidle => by
    rw [openedAll, Skeleton.nextAmong, next_opened_of_idle hK e made.1 hidle.1,
      nextAmong_opened_of_idle hK e made.2 hidle.2]
    rfl

end

/-! ### Steps -/

/-- What a step does to a term with all names opened: it opens a name and nothing else, or it takes
the step. -/
inductive Tracks (e : Places) (t : Term) (r : Stepped) : Prop where
  | opens (same : r.term.opened e = t.opened e) (fewer : r.term.pending < t.pending)
      (cheap : r.cost ≤ 1)
  | advances (next : (t.opened e).next = some (r.term.opened e)) (cost : r.cost = 1)

/-- What a step does to some terms with all names opened. -/
inductive TracksAmong (e : Places) (as : List Term) (r : SteppedAmong) : Prop where
  | opens (same : openedAll e r.terms = openedAll e as)
      (fewer : pendingAll r.terms < pendingAll as) (cheap : r.cost ≤ 1)
  | advances (next : Skeleton.nextAmong (openedAll e as) = some (openedAll e r.terms))
      (cost : r.cost = 1)

section Tracks

variable {a h : Term} {as : List Term}

/-- Terms of which the first takes a step. -/
private theorem Tracks.among {r : Stepped} (ha : Tracks e a r) :
    TracksAmong e (a :: as) ⟨r.term :: as, r.cost⟩ := by
  cases ha with
  | opens same fewer cheap =>
    refine .opens ?_ ?_ cheap
    · rw [openedAll, openedAll, same]
    · rw [pendingAll, pendingAll]
      omega
  | advances next cost =>
    refine .advances ?_ cost
    rw [openedAll, openedAll, Skeleton.nextAmong, next]

/-- Terms of which the first has no step. -/
private theorem TracksAmong.behind {r : SteppedAmong} (has : TracksAmong e as r)
    (still : (a.opened e).next = none) : TracksAmong e (a :: as) ⟨a :: r.terms, r.cost⟩ := by
  cases has with
  | opens same fewer cheap =>
    refine .opens ?_ ?_ cheap
    · rw [openedAll, openedAll, same]
    · rw [pendingAll, pendingAll]
      omega
  | advances next cost =>
    refine .advances ?_ cost
    rw [openedAll, openedAll, Skeleton.nextAmong, still, next]
    rfl

/-- A head that waits for more arguments is applied to those that have taken a step. -/
private theorem TracksAmong.ensures_apply {r : SteppedAmong} (has : TracksAmong e as r) {n : Nat}
    (hfits : h.Fits Γ s) (quiet : R.quiet h = true) (hhead : (h.opened e).IsHead)
    (hred : (h.opened e).reduct (openedAll e as) = none) :
    Ensures (apply R h r.terms) s fun u _ => Tracks e (app n h as) ⟨u, r.cost⟩ := by
  apply (ensures_opened_apply hfits r.terms).traced.imp
  rintro u s₁ _ ⟨hu, hmade⟩
  cases has with
  | opens same fewer cheap =>
    refine .opens ?_ ?_ cheap
    · rw [hu, same, opened]
    · have := pending_apply r.terms quiet hmade
      rw [pending]
      dsimp only
      omega
  | advances next cost =>
    refine .advances ?_ cost
    rw [opened, hhead.next_extend, hred, next, hu]
    rfl

end Tracks

/-- To fire a name at the head opens it, and to fire any other head is a step. -/
theorem ensures_opened_reduce (hK : K.Transparent) (hΓ : Γ.Sealed s) {n : Nat} {h : Term}
    (made : (app n h as).MadeOf K) (hfits : (app n h as).Fits Γ s) (e : Places) :
    Ensures (reduce R h as) s fun o _ => ∀ u, o = some u → Tracks e (app n h as) ⟨u, 1⟩ := by
  obtain ⟨-, hh, has⟩ := made
  obtain ⟨-, hf, haf⟩ := hfits
  -- what fires is a step of the application, as the head is not an application itself
  have advances {x : Skeleton} {u : Term} (hhead : (h.opened e).IsHead)
      (hred : (h.opened e).reduct (openedAll e as) = some x) (hu : u.opened e = x) :
      Tracks e (app n h as) ⟨u, 1⟩ := by
    refine .advances ?_ rfl
    rw [opened, hhead.next_extend, hred, hu]
    rfl
  cases h with
  | native c =>
    obtain ⟨hpure, hne⟩ := hK.native c hh
    have hhead : ((native c).opened e).IsHead := ⟨nofun, fun hc => hne (by injection hc)⟩
    unfold reduce
    apply ((Native.ensures_opened_contract hpure hne haf e).and
      (Native.ensures_contract (η := True) R hpure haf)).bind
    rintro o s₁ hs ⟨hfire, hmeans⟩
    cases o with
    | none => exact .pure nofun
    | some t =>
      have fits := (hmeans t rfl).fits
      cases t with
      | foreign x => exact .throw
      | _ =>
        apply (ensures_opened_apply fits (as.drop c.arity)).bind
        intro u s₂ _ hu
        refine .pure ?_
        rintro _ ⟨⟩
        refine advances hhead ?_ (hu e)
        have fired : ((native c).opened e).reduct (openedAll e as) =
            (Skeleton.fire c (openedAll e as)).map (·.extend ((openedAll e as).drop c.arity)) := rfl
        rw [fired, hfire, Option.map_some, Option.map_some, openedAll_eq_map, openedAll_eq_map,
          List.map_drop]
  | lam v b =>
    unfold reduce
    cases as with
    | nil => exact .pure nofun
    | cons a as =>
      apply ((ensures_opened_instantiate hΓ hf haf.1 e).and
        (ensures_instantiate (η := True) R hΓ hf haf.1)).bind
      rintro t s₁ hs ⟨ht, hmeans⟩
      apply (ensures_opened_apply hmeans.fits as).bind
      intro u s₂ _ hu
      refine .pure ?_
      rintro _ ⟨⟩
      refine advances ⟨nofun, nofun⟩ ?_ (hu e)
      rw [opened, openedAll, Skeleton.reduct, ht]
  | named info d =>
    unfold reduce
    apply (Engine.ensures_bound info.arity s).bind
    intro m s₁ hs _
    split
    · exact .pure nofun
    · have quiet : R.quiet d = true := MadeOf.quiet (hK.closed R) hh.2
      apply (ensures_opened_apply (hf.2.later hs) as).traced.bind
      rintro u s₂ _ ⟨hu, heq⟩
      refine .pure ?_
      rintro _ ⟨⟩
      refine .opens ?_ ?_ (Nat.le_refl 1)
      · rw [hu, opened, opened]
      · have fewer := pending_apply as quiet heq
        rw [pending, pending]
        dsimp only
        omega
  | var v =>
    unfold reduce
    exact .pure nofun
  | foreign x =>
    unfold reduce
    exact .pure nofun
  | app m g bs =>
    unfold reduce
    exact .pure nofun

mutual

/-- A step of the strategy opens a name, or it is the step with all names opened. -/
theorem ensures_opened_leftmost (hK : K.Transparent) (e : Places) : ∀ (t : Term) {s : Store},
    Γ.Sealed s → t.MadeOf K → t.Fits Γ s →
      Ensures (leftmost R t) s fun o _ => ∀ r, o = some r → Tracks e t r
  | var v, s, _, _, _ => by
    unfold leftmost
    exact .pure nofun
  | native c, s, _, _, _ => by
    unfold leftmost
    exact .pure nofun
  | foreign x, s, _, _, _ => by
    unfold leftmost
    exact .pure nofun
  | lam v b, s, _, _, _ => by
    unfold leftmost
    exact .pure nofun
  | named info d, s, _, _, _ => by
    unfold leftmost
    refine .pure fun r hr => ?_
    split at hr
    · cases hr
      exact .opens rfl (Nat.lt_succ_self _) (Nat.zero_le 1)
    · cases hr
  | app n h as, s, hΓ, made, hfits => by
    unfold leftmost
    apply (ensures_opened_reduce hK hΓ made hfits e).traced.bind
    rintro o s₁ hs₁ ⟨ho, heq⟩
    cases o with
    | some u =>
      refine .pure ?_
      rintro _ ⟨⟩
      exact ho u rfl
    | none =>
      -- the head waits for more arguments, so that it has no step itself
      obtain ⟨hhead, hred, hidle⟩ :=
        isHead_of_waits hK made.2.1 (isApp_head hK made) (waits_of_reduce heq) e
      rw [leftmost_of_idle R hidle, pure_bind]
      dsimp only
      apply (ensures_opened_leftmostAmong hK e as (hΓ.later hs₁) made.2.2
        (hfits.2.2.later hs₁)).bind
      intro o s₂ hs₂ ho
      cases o with
      | none => exact .pure nofun
      | some as' =>
        have fits := hfits.2.1.later (Store.le_trans hs₁ hs₂)
        apply ((ho as' rfl).ensures_apply fits (made.2.1.quiet (hK.closed R)) hhead hred).bind
        intro u s₃ _ hu
        refine .pure ?_
        rintro _ ⟨⟩
        exact hu

theorem ensures_opened_leftmostAmong (hK : K.Transparent) (e : Places) : ∀ (as : List Term)
    {s : Store}, Γ.Sealed s → MadeOfAll K as → FitsAll Γ s as →
      Ensures (leftmostAmong R as) s fun o _ => ∀ r, o = some r → TracksAmong e as r
  | [], s, _, _, _ => by
    unfold leftmostAmong
    exact .pure nofun
  | a :: as, s, hΓ, made, hfits => by
    unfold leftmostAmong
    apply (ensures_opened_leftmost hK e a hΓ made.1 hfits.1).traced.bind
    rintro o s₁ hs ⟨ho, heq⟩
    cases o with
    | some a' =>
      refine .pure ?_
      rintro _ ⟨⟩
      exact (ho a' rfl).among
    | none =>
      have still := next_opened_of_idle hK e made.1 (idle_of_leftmost heq)
      apply (ensures_opened_leftmostAmong hK e as (hΓ.later hs) made.2 (hfits.2.later hs)).bind
      intro o s₂ _ ho
      cases o with
      | none => exact .pure nofun
      | some as' =>
        refine .pure ?_
        rintro _ ⟨⟩
        exact (ho as' rfl).behind still

end

end Term

end Combinatory
