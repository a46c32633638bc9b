import Combinatory.Proofs.Ending.Canonical
import Combinatory.Proofs.Nameless

/-!
# Skeletons without combinators

A skeleton is bare if it consists of variables, lambdas and applications. Within limits that are
numbers no computation with bare skeletons fails, since only the successor can, and what it gives is
bare again (`makes_canonicalize`). Their weight is additive: an application weighs as much as its
parts (`makes_apply`), and both halves of one are smaller than the whole (`makes_split`).
-/

namespace Combinatory

/-! ### Computations that have a result -/

section

variable {α β : Type} {r : Except Failure α} {P Q : α → Prop}

/-- A computation with skeletons has a result that meets a condition. -/
def Makes (r : Except Failure α) (Q : α → Prop) : Prop := ∃ a, r = .ok a ∧ Q a

protected theorem Makes.pure {a : α} (h : Q a) : Makes (pure a) Q := ⟨a, rfl, h⟩

theorem Makes.imp (hr : Makes r P) (h : ∀ a, P a → Q a) : Makes r Q := by
  obtain ⟨a, hr, ha⟩ := hr
  exact ⟨a, hr, h a ha⟩

protected theorem Makes.bind {f : α → Except Failure β} {Q : β → Prop} (hr : Makes r P)
    (hf : ∀ a, P a → Makes (f a) Q) : Makes (r >>= f) Q := by
  obtain ⟨a, rfl, ha⟩ := hr
  exact hf a ha

/-- A result is the one of the computation. -/
theorem Makes.traced (hr : Makes r P) : Makes r fun a => P a ∧ r = .ok a := by
  obtain ⟨a, hr, ha⟩ := hr
  exact ⟨a, hr, ha, hr⟩

/-- A sequence has a result if its parts have. -/
theorem exists_of_bind_ok {f : α → Except Failure β} {b : β} (h : r >>= f = .ok b) :
    ∃ a, r = .ok a ∧ f a = .ok b := by
  cases r with
  | ok a => exact ⟨a, rfl, h⟩
  | error e => cases h

theorem Makes.of_ok (hr : Makes r P) {a : α} (h : r = .ok a) : P a := by
  obtain ⟨b, hb, hp⟩ := hr
  rw [h] at hb
  cases hb
  exact hp

/-- What holds of a list so far at every step of a fold holds of the whole list at its end. -/
protected theorem Makes.foldlM {f : α → β → Except Failure α} {I : List β → α → Prop}
    {l : List β} {a : α} (h : I [] a)
    (hf : ∀ l₀ b a, b ∈ l → I l₀ a → Makes (f a b) (I (l₀ ++ [b]))) :
    Makes (l.foldlM f a) (I l) := by
  suffices ∀ l₀ l₁ a, l = l₀ ++ l₁ → I l₀ a → Makes (l₁.foldlM f a) (I l) from
    this [] l a rfl h
  intro l₀ l₁
  induction l₁ generalizing l₀ with
  | nil =>
    rintro a rfl ha
    rw [List.append_nil] at hf ⊢
    exact .pure ha
  | cons b l₁ ih =>
    rintro a rfl ha
    rw [List.foldlM_cons]
    apply (hf l₀ b a (by simp) ha).bind
    intro a' ha'
    exact ih (l₀ ++ [b]) a' (by simp) ha'

end

namespace Skeleton

/-! ### Weight and size -/

mutual

/-- Variables are free; every other leaf and every lambda costs one. -/
def weight : Skeleton → Nat
  | var _ => 0
  | lam b => weight b + 1
  | app h as => weight h + weightAll as
  | _ => 1

/-- The weight of a list of skeletons. -/
def weightAll : List Skeleton → Nat
  | [] => 0
  | a :: as => weight a + weightAll as

end

mutual

/-- The number of nodes. -/
def size : Skeleton → Nat
  | lam b => size b + 1
  | app h as => size h + sizeAll as
  | _ => 1

/-- The number of nodes of a list of skeletons, and one for the list. -/
def sizeAll : List Skeleton → Nat
  | [] => 1
  | a :: as => size a + sizeAll as

end

/-- How many applications are on the way down the fronts. -/
def spine : Skeleton → Nat
  | app h as => spine h + as.length
  | lam b => spine b
  | _ => 0

theorem weightAll_append (as bs : List Skeleton) :
    weightAll (as ++ bs) = weightAll as + weightAll bs := by
  induction as with
  | nil => simp [weightAll]
  | cons a as ih => simp [weightAll, ih, Nat.add_assoc]

theorem sizeAll_append (as bs : List Skeleton) :
    sizeAll (as ++ bs) + 1 = sizeAll as + sizeAll bs := by
  induction as with
  | nil => simp [sizeAll, Nat.add_comm]
  | cons a as ih =>
    simp only [List.cons_append, sizeAll]
    omega

theorem size_pos (x : Skeleton) : 0 < x.size := by
  cases x with
  | app h as =>
    have := size_pos h
    simp only [size]
    omega
  | _ => simp [size]

theorem sizeAll_pos (xs : List Skeleton) : 0 < sizeAll xs := by
  induction xs with
  | nil => simp [sizeAll]
  | cons x xs ih =>
    simp only [sizeAll]
    omega

/-! ### Bare skeletons -/

mutual

/-- Whether a skeleton consists of variables, lambdas and applications to arguments. -/
def Bare : Skeleton → Prop
  | var _ => True
  | lam b => Bare b
  | app h as => as ≠ [] ∧ Bare h ∧ BareAll as
  | _ => False

/-- Whether all skeletons of a list do. -/
def BareAll : List Skeleton → Prop
  | [] => True
  | a :: as => Bare a ∧ BareAll as

end

/-- Whether a skeleton is bare, if there is one. -/
abbrev BareAny (o : Option Skeleton) : Prop := ∀ x, o = some x → x.Bare

variable {x y h : Skeleton} {xs as bs : List Skeleton} {σ : Place → Skeleton}

theorem BareAll.nil : BareAll [] := trivial

theorem BareAll.cons (hx : x.Bare) (hxs : BareAll xs) : BareAll (x :: xs) := ⟨hx, hxs⟩

theorem bareAll_append : BareAll (as ++ bs) ↔ BareAll as ∧ BareAll bs := by
  induction as with
  | nil => simp [BareAll]
  | cons a as ih => simp [BareAll, ih, and_assoc]

theorem bareAny_none : BareAny none := nofun

theorem bareAny_some (hx : x.Bare) : BareAny (some x) := by
  rintro _ ⟨⟩
  exact hx

mutual

/-- Moving the places changes nothing else. -/
theorem Bare.move (r : Place → Place) : ∀ {x : Skeleton}, x.Bare → (x.move r).Bare
  | var _, _ => trivial
  | lam b, hb => Bare.move (Place.under r) (x := b) hb
  | app _ (_ :: _), ⟨_, hh, has⟩ => ⟨List.cons_ne_nil _ _, hh.move r, has.move r⟩

theorem BareAll.move (r : Place → Place) : ∀ {xs : List Skeleton}, BareAll xs →
    BareAll (moveAll r xs)
  | [], _ => trivial
  | _ :: _, ⟨hx, hxs⟩ => ⟨hx.move r, hxs.move r⟩

end

theorem Bare.lift (hx : x.Bare) : x.lift.Bare := hx.move _

theorem Bare.close (hx : x.Bare) (k : Nat) : (close k x).Bare := by
  induction k with
  | zero => exact hx
  | succ k ih => exact ih

/-! ### Building -/

/-- Applying weighs and counts as much as the parts together. -/
theorem makes_apply (hx : x.Bare) (has : BareAll as) : Makes (x.apply as) fun y =>
    y.Bare ∧ y.weight = x.weight + weightAll as ∧ y.spine = x.spine + as.length ∧
      y.size ≤ x.size + sizeAll as := by
  cases as with
  | nil =>
    rw [apply]
    exact .pure ⟨hx, by simp [weightAll], by simp, by simp [sizeAll]⟩
  | cons a as =>
    cases x with
    | app h bs =>
      have sizes := sizeAll_append bs (a :: as)
      rw [apply]
      refine .pure ⟨⟨by simp, hx.2.1, bareAll_append.mpr ⟨hx.2.2, has⟩⟩, ?_, ?_, ?_⟩
      · rw [weight, weight, weightAll_append, Nat.add_assoc]
      · rw [spine, spine, List.length_append, Nat.add_assoc]
      · simp only [size]
        omega
    | var p =>
      rw [apply_of_unmet (by simp) (by simp)]
      exact .pure ⟨⟨List.cons_ne_nil a as, hx, has⟩, by simp [weight], by simp [spine],
        by simp [size]⟩
    | lam b =>
      rw [apply_of_unmet (by simp) (by simp)]
      exact .pure ⟨⟨List.cons_ne_nil a as, hx, has⟩, by simp [weight], by simp [spine],
        by simp [size]⟩
    | native c => exact hx.elim
    | foreign y => exact hx.elim
    | named info d => exact hx.elim

/-- Applying gives a bare skeleton. -/
theorem makes_apply_bare (hx : x.Bare) (has : BareAll as) : Makes (x.apply as) Bare :=
  (makes_apply hx has).imp fun _ h => h.1

/-- Both halves of an application weigh as much as the whole, and both are smaller. -/
theorem makes_split (hx : (app h as).Bare) :
    Makes (split h as) fun r => r.1.Bare ∧ r.2.Bare ∧
      r.1.weight + r.2.weight = (app h as).weight ∧ r.1.spine + 1 = (app h as).spine ∧
      r.1.size < (app h as).size ∧ r.2.size < (app h as).size := by
  obtain ⟨hne, hh, has⟩ := hx
  obtain ⟨bs, a, rfl⟩ := (List.eq_nil_or_concat' as).resolve_left hne
  obtain ⟨hbs, ha, -⟩ := bareAll_append.mp has
  unfold split
  rw [List.getLast?_concat, List.dropLast_concat]
  apply (makes_apply hh hbs).bind
  rintro y ⟨hy, hweight, hspine, hsize⟩
  have sizes := sizeAll_append bs [a]
  have := size_pos h
  have := size_pos a
  have := sizeAll_pos bs
  refine .pure ⟨hy, ha, ?_, ?_, ?_, ?_⟩
  · simp only [weight, weightAll_append, weightAll]
    omega
  · simp only [spine, List.length_append, List.length_singleton]
    omega
  · simp only [size, sizeAll] at sizes ⊢
    omega
  · simp only [size, sizeAll] at sizes ⊢
    omega

/-- If the applications in one can stand as they are, so can those in its front, and both halves are
put back together as they were. -/
theorem stands_split (hx : (app h as).Bare) (hst : (app h as).stands = true)
    (hsplit : split h as = .ok (x, y)) : x.stands = true ∧ x.apply [y] = .ok (app h as) := by
  obtain ⟨hne, hh, -⟩ := hx
  obtain ⟨bs, a, rfl⟩ := (List.eq_nil_or_concat' as).resolve_left hne
  simp only [stands, standsAll_append, Bool.and_eq_true] at hst
  obtain ⟨⟨bears, stands⟩, before, -⟩ := hst
  have joins : ∀ cs, h.bears cs = true := by
    cases h with
    | app g ds => cases bears
    | var p => exact fun _ => rfl
    | lam b => exact fun _ => rfl
    | native c => exact hh.elim
    | foreign y => exact hh.elim
    | named info d => exact hh.elim
  rw [split, List.getLast?_concat, List.dropLast_concat] at hsplit
  cases bs with
  | nil =>
    rw [apply] at hsplit
    cases hsplit
    exact ⟨stands, apply_of_bears (joins _)⟩
  | cons b bs =>
    rw [apply_of_bears (joins _)] at hsplit
    cases hsplit
    refine ⟨by rw [Skeleton.stands, joins, stands, before]; rfl, ?_⟩
    rw [apply]
    rfl

theorem bare_under (hσ : ∀ p, (σ p).Bare) (p : Place) : (under σ p).Bare := by
  cases p with
  | free v => exact (hσ _).lift
  | bound i =>
    cases i with
    | zero => trivial
    | succ i => exact (hσ _).lift

mutual

theorem makes_put : ∀ {x : Skeleton} {σ : Place → Skeleton}, (∀ p, (σ p).Bare) → x.Bare →
    Makes (x.put σ) Bare
  | var p, σ, hσ, _ => by
    unfold put
    exact .pure (hσ p)
  | lam b, σ, hσ, hb => by
    unfold put
    apply (makes_put (x := b) (bare_under hσ) hb).bind
    intro b' hb'
    exact .pure hb'
  | app h as, σ, hσ, ⟨_, hh, has⟩ => by
    unfold put
    apply (makes_put hσ hh).bind
    intro h' hh'
    apply (makes_putAll hσ has).bind
    intro as' has'
    exact makes_apply_bare hh' has'

theorem makes_putAll : ∀ {xs : List Skeleton} {σ : Place → Skeleton}, (∀ p, (σ p).Bare) →
    BareAll xs → Makes (putAll σ xs) BareAll
  | [], σ, _, _ => by
    unfold putAll
    exact .pure trivial
  | x :: xs, σ, hσ, ⟨hx, hxs⟩ => by
    unfold putAll
    apply (makes_put hσ hx).bind
    intro y hy
    apply (makes_putAll hσ hxs).bind
    intro ys hys
    exact .pure ⟨hy, hys⟩

end

/-! ### Reduction -/

/-- Only a lambda has a rule. -/
theorem makes_reduce (hx : x.Bare) (has : BareAll as) : Makes (reduce x as) BareAny := by
  cases x with
  | var p => exact .pure bareAny_none
  | lam b =>
    cases as with
    | nil => exact .pure bareAny_none
    | cons a as =>
      have passed (p : Place) : (passing a p).Bare := by
        rcases p with (_ | _) | _
        · exact has.1
        · trivial
        · trivial
      unfold reduce
      apply (makes_put (x := b) passed hx).bind
      intro y hy
      apply (makes_apply_bare hy has.2).bind
      intro z hz
      exact .pure (bareAny_some hz)
  | app h bs => exact .pure bareAny_none
  | native c => exact hx.elim
  | foreign y => exact hx.elim
  | named info d => exact hx.elim

mutual

theorem makes_step : ∀ {x : Skeleton}, x.Bare → Makes x.step BareAny
  | var _, _ => by
    unfold step
    exact .pure bareAny_none
  | lam _, _ => by
    unfold step
    exact .pure bareAny_none
  | app h as, ⟨_, hh, has⟩ => by
    unfold step
    apply (makes_reduce hh has).bind
    rintro (_ | y) hy
    · apply (makes_step hh).bind
      rintro (_ | h') hh'
      · apply (makes_stepAmong has).bind
        rintro (_ | as') has'
        · exact .pure bareAny_none
        · apply (makes_apply_bare hh (has' as' rfl)).bind
          intro z hz
          exact .pure (bareAny_some hz)
      · apply (makes_apply_bare (hh' h' rfl) has).bind
        intro z hz
        exact .pure (bareAny_some hz)
    · exact .pure hy

theorem makes_stepAmong : ∀ {xs : List Skeleton}, BareAll xs →
    Makes (stepAmong xs) fun o => ∀ ys, o = some ys → BareAll ys
  | [], _ => by
    unfold stepAmong
    exact .pure nofun
  | x :: xs, ⟨hx, hxs⟩ => by
    unfold stepAmong
    apply (makes_step hx).bind
    rintro (_ | y) hy
    · apply (makes_stepAmong hxs).bind
      rintro (_ | ys) hys
      · exact .pure nofun
      · refine .pure ?_
        rintro _ ⟨⟩
        exact ⟨hx, hys ys rfl⟩
    · refine .pure ?_
      rintro _ ⟨⟩
      exact ⟨hy y rfl, hxs⟩

end

theorem makes_runFrom (left : Nat) (steps : Nat) (hx : x.Bare) :
    Makes (x.runFrom steps left) fun c => c.result.Bare := by
  induction left generalizing x steps with
  | zero =>
    unfold runFrom
    exact (makes_step hx).bind fun _ _ => .pure hx
  | succ left ih =>
    unfold runFrom
    apply (makes_step hx).bind
    rintro (_ | y) hy
    · exact .pure hx
    · exact ih _ (hy y rfl)

theorem makes_run {budget : Amount} {n : Int} (hn : budget.bound? = some n) (hx : x.Bare) :
    Makes (run budget x) fun c => c.result.Bare := by
  unfold run
  rw [hn]
  exact makes_runFrom _ _ hx

/-! ### Canonical forms -/

/-- Whether what a search tells is bare, if it tells anything. -/
abbrev BareFound (r : Option (Skeleton × Nat) × Nat) : Prop :=
  ∀ q, r.1 = some q → q.1.Bare

theorem makes_searchFrom {maxSteps : Amount} {n : Int} (hn : maxSteps.bound? = some n) (left : Nat)
    (fed spent : Nat) (hx : x.Bare) : Makes (x.searchFrom maxSteps fed spent left) BareFound := by
  induction left generalizing x fed spent with
  | zero => exact .pure nofun
  | succ left ih =>
    unfold searchFrom
    apply (makes_run hn hx).bind
    intro c hc
    dsimp only
    split
    · exact .pure nofun
    · split
      · refine .pure ?_
        rintro _ ⟨⟩
        exact hc
      · have probe : BareAll [var (.bound 0)] := ⟨trivial, trivial⟩
        apply (makes_apply_bare hc.lift probe).bind
        intro y hy
        exact ih _ _ hy

variable {limits : Budget}

theorem makes_search (hl : limits.Numeric) (hx : x.Bare) : Makes (search limits x) BareFound := by
  obtain ⟨n, hn⟩ := hl.steps
  obtain ⟨m, hm⟩ := hl.args
  unfold search
  rw [hm]
  exact makes_searchFrom hn m.toNat 0 0 hx

private theorem makes_best (hl : limits.Numeric) (hx : x.Bare)
    {guess : Except Failure (Option Skeleton)} (hguess : Makes guess BareAny) :
    Makes (best limits x guess) BareAny := by
  unfold best
  apply (makes_search hl hx).bind
  rintro ⟨_ | ⟨y, k⟩, n⟩ hy
  · exact hguess
  · exact .pure (bareAny_some ((hy _ rfl).close k))

private theorem makes_join {f a : Option Skeleton} (hf : BareAny f) (ha : BareAny a) :
    Makes (join f a) BareAny := by
  unfold join
  split
  · next f a =>
    apply (makes_apply_bare (hf f rfl) (.cons (ha a rfl) .nil)).bind
    intro y hy
    exact .pure (bareAny_some hy)
  · exact .pure bareAny_none

/-- A guess that may take a skeleton apart all the way down gets to an end. -/
theorem makes_guess (hl : limits.Numeric) (patience : Nat) (hx : x.Bare)
    (hsize : x.size ≤ patience) : Makes (guess limits patience x) BareAny := by
  induction patience generalizing x with
  | zero => exact absurd hsize (Nat.not_le_of_lt x.size_pos)
  | succ patience ih =>
    cases x with
    | app h as =>
      unfold guess
      apply (makes_split hx).bind
      rintro ⟨front, last⟩ ⟨hf, hl', -, -, hfront, hlast⟩
      dsimp only at hf hl' hfront hlast ⊢
      apply (makes_best hl hf (ih hf (by omega))).bind
      intro f hf
      apply (makes_best hl hl' (ih hl' (by omega))).bind
      intro a ha
      exact makes_join hf ha
    | _ => exact .pure bareAny_none

/-- A search for the canonical form does not fail, and what it ends with, if anything, is bare. -/
theorem makes_canonicalize (hl : limits.Numeric) {patience : Nat} (hx : x.Bare)
    (hsize : x.size ≤ patience) :
    Makes (canonicalize limits patience x) fun f => BareAny f.canonical := by
  unfold canonicalize
  apply (makes_search hl hx).bind
  rintro ⟨_ | ⟨y, k⟩, n⟩ hy
  · apply (makes_guess hl patience hx hsize).bind
    intro o ho
    exact .pure ho
  · exact .pure (bareAny_some ((hy _ rfl).close k))

end Skeleton

end Combinatory
