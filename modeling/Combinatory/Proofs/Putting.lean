import Combinatory.Proofs.Nameless

/-!
# Putting skeletons in place of others

To put skeletons at the places of variables and then others at the places of what results is to put
at each place, at once, what the second makes of what the first has put there (`put_put`). As every
application is built again by applying, this rests on the fact that to apply commutes with putting
(`put_apply`): what is put where the successor waits may be a numeral, and what is put at a head an
application. All that can go wrong is that a numeral gets too long, and it goes wrong on the one way
exactly if it does on the other.
-/

namespace Combinatory

/-- Whether a computation fails, if at all, because of a numeral that is too long. -/
def OnlyTooLong {α : Type} (r : Except Failure α) : Prop :=
  ∀ e, r = .error e → e = .numeralTooLong

namespace OnlyTooLong

variable {α β : Type} {r r' : Except Failure α}

protected theorem pure (a : α) : OnlyTooLong (Pure.pure a) := nofun

protected theorem bind {f : α → Except Failure β} (h : OnlyTooLong r)
    (hf : ∀ a, OnlyTooLong (f a)) : OnlyTooLong (r >>= f) := by
  intro e he
  cases r with
  | ok a => exact hf a e he
  | error e' =>
    cases he
    exact h e rfl

/-- A sequence has a result if both parts have one. -/
theorem bind_eq_ok_iff {f : α → Except Failure β} {b : β} :
    r >>= f = .ok b ↔ ∃ a, r = .ok a ∧ f a = .ok b := by
  cases r with
  | ok a =>
    refine ⟨fun h => ⟨a, rfl, h⟩, ?_⟩
    rintro ⟨_, ⟨⟩, h⟩
    exact h
  | error e =>
    constructor
    · rintro ⟨⟩
    · rintro ⟨_, ⟨⟩, _⟩

/-- Computations that can fail for that cause only are the same if they have the same results. -/
theorem ext (h : OnlyTooLong r) (h' : OnlyTooLong r') (same : ∀ a, r = .ok a ↔ r' = .ok a) :
    r = r' := by
  cases hr : r with
  | ok a => exact ((same a).mp hr).symm
  | error e =>
    cases hr' : r' with
    | ok a => rw [(same a).mpr hr'] at hr; cases hr
    | error e' => rw [h e hr, h' e' hr']

end OnlyTooLong

namespace Skeleton

open OnlyTooLong (bind_eq_ok_iff)

variable {σ τ ρ : Place → Skeleton} {r : Place → Place}

theorem onlyTooLong_apply (x : Skeleton) (as : List Skeleton) : OnlyTooLong (x.apply as) :=
  fun _ h => eq_of_apply_eq_error h

mutual

/-- Putting fails, if at all, because of a numeral that is too long. -/
theorem onlyTooLong_put : ∀ (x : Skeleton) (σ : Place → Skeleton), OnlyTooLong (x.put σ)
  | var p, σ => .pure (σ p)
  | native c, _ => .pure (native c)
  | foreign x, _ => .pure (foreign x)
  | named info d, _ => .pure (named info d)
  | lam b, σ => (onlyTooLong_put b (under σ)).bind fun x => .pure (lam x)
  | app h as, σ => (onlyTooLong_put h σ).bind fun x =>
    (onlyTooLong_putAll as σ).bind fun xs => onlyTooLong_apply x xs

theorem onlyTooLong_putAll : ∀ (xs : List Skeleton) (σ : Place → Skeleton),
    OnlyTooLong (putAll σ xs)
  | [], _ => .pure []
  | x :: xs, σ => (onlyTooLong_put x σ).bind fun y =>
    (onlyTooLong_putAll xs σ).bind fun ys => .pure (y :: ys)

end

/-! ### Moving the places -/

theorem under_comp (σ : Place → Skeleton) (r : Place → Place) :
    under (σ ∘ r) = under σ ∘ Place.under r := by
  funext p
  cases p with
  | bound i =>
    cases i with
    | zero => rfl
    | succ i => exact (under_lift σ (r (.bound i))).symm
  | free v => exact (under_lift σ (r (.free v))).symm

mutual

/-- What is put into a skeleton whose places have been moved. -/
theorem put_move : ∀ (x : Skeleton) (σ : Place → Skeleton) (r : Place → Place),
    (x.move r).put σ = x.put (σ ∘ r)
  | var _, _, _ => rfl
  | native _, _, _ => rfl
  | foreign _, _, _ => rfl
  | named _ _, _, _ => rfl
  | lam b, σ, r => by rw [move, put, put, put_move b, under_comp]
  | app h as, σ, r => by rw [move, put, put, put_move h, putAll_move as]

theorem putAll_move : ∀ (xs : List Skeleton) (σ : Place → Skeleton) (r : Place → Place),
    putAll σ (moveAll r xs) = putAll (σ ∘ r) xs
  | [], _, _ => rfl
  | x :: xs, σ, r => by rw [moveAll, putAll, putAll, put_move x, putAll_move xs]

end

mutual

theorem move_move : ∀ (x : Skeleton) (r q : Place → Place), (x.move r).move q = x.move (q ∘ r)
  | var _, _, _ => rfl
  | native _, _, _ => rfl
  | foreign _, _, _ => rfl
  | named _ _, _, _ => rfl
  | lam b, r, q => by
    have below : Place.under q ∘ Place.under r = Place.under (q ∘ r) := by
      funext p
      cases p with
      | bound i =>
        cases i with
        | zero => rfl
        | succ i => exact Place.under_lift q (r (.bound i))
      | free v => exact Place.under_lift q (r (.free v))
    rw [move, move, move, move_move b, below]
  | app h as, r, q => by rw [move, move, move, move_move h, moveAll_moveAll as]

theorem moveAll_moveAll : ∀ (xs : List Skeleton) (r q : Place → Place),
    moveAll q (moveAll r xs) = moveAll (q ∘ r) xs
  | [], _, _ => rfl
  | x :: xs, r, q => by rw [moveAll, moveAll, moveAll, move_move x, moveAll_moveAll xs]

end

/-- Moving the places goes into the parts of what is applied. -/
theorem apply_move (r : Place → Place) (x : Skeleton) (as : List Skeleton) :
    (x.move r).apply (moveAll r as) = do return (← x.apply as).move r := by
  fun_induction apply x as with
  | case1 x => rfl
  | case2 h bs a as =>
    simp only [pure_bind, move, moveAll, apply, moveAll_append]
  | case3 n as hn ih =>
    rw [← ih]
    simp [move, moveAll, apply, hn]
  | case4 n as hn =>
    simp only [move, moveAll, apply, hn, if_false]
    rfl
  | case5 x a as flat unmet =>
    rw [moveAll, pure_bind, move, moveAll, apply_of_unmet]
    · intro g bs hx
      cases x <;> simp_all [move]
    · intro hx n ha
      cases x <;> cases a <;> simp_all [move]

mutual

/-- What has been put may be moved before or after. -/
theorem put_comp_move : ∀ (x : Skeleton) (σ : Place → Skeleton) (r : Place → Place),
    x.put (move r ∘ σ) = do return (← x.put σ).move r
  | var _, _, _ => rfl
  | native _, _, _ => rfl
  | foreign _, _, _ => rfl
  | named _ _, _, _ => rfl
  | lam b, σ, r => by
    have below : under (move r ∘ σ) = move (Place.under r) ∘ under σ := by
      have lifted (y : Skeleton) : (y.move r).lift = y.lift.move (Place.under r) := by
        rw [lift, lift, move_move, move_move]
        exact congrArg y.move (funext fun p => (Place.under_lift r p).symm)
      funext p
      cases p with
      | bound i =>
        cases i with
        | zero => rfl
        | succ i => exact lifted _
      | free v => exact lifted _
    rw [put, put, below, put_comp_move b, bind_assoc, bind_assoc]
    rfl
  | app h as, σ, r => by
    simp only [put, put_comp_move h, putAll_comp_move as, bind_assoc, pure_bind, apply_move]

theorem putAll_comp_move : ∀ (xs : List Skeleton) (σ : Place → Skeleton) (r : Place → Place),
    putAll (move r ∘ σ) xs = do return moveAll r (← putAll σ xs)
  | [], _, _ => rfl
  | x :: xs, σ, r => by
    simp only [putAll, put_comp_move x, putAll_comp_move xs, bind_assoc, pure_bind, moveAll]

end

/-! ### Putting into what has been put -/

theorem putAll_append (σ : Place → Skeleton) (xs ys : List Skeleton) :
    putAll σ (xs ++ ys) = do
      let xs ← putAll σ xs
      return xs ++ (← putAll σ ys) := by
  induction xs with
  | nil => simp [putAll]
  | cons x xs ih => simp [putAll, ih]

/-- Putting goes into the parts of what is applied. -/
theorem put_apply (σ : Place → Skeleton) (x : Skeleton) (as : List Skeleton) :
    x.apply as >>= put σ = (do
      let h ← x.put σ
      h.apply (← putAll σ as)) := by
  fun_induction apply x as with
  | case1 x => simp [putAll, apply]
  | case2 h bs a as =>
    -- the arguments that the head has already are put first, or all of them at once
    refine OnlyTooLong.ext (onlyTooLong_put (app h (bs ++ a :: as)) σ)
      ((onlyTooLong_put (app h bs) σ).bind fun y =>
        (onlyTooLong_putAll (a :: as) σ).bind fun ys => onlyTooLong_apply y ys) fun z => ?_
    simp only [pure_bind, put, putAll_append, bind_assoc, bind_eq_ok_iff, apply_append]
    constructor
    · rintro ⟨h', hh, bs', hbs, as', has, y, hy, hz⟩
      exact ⟨h', hh, bs', hbs, y, hy, as', has, hz⟩
    · rintro ⟨h', hh, bs', hbs, y, hy, as', has, hz⟩
      exact ⟨h', hh, bs', hbs, as', has, y, hy, hz⟩
  | case3 n as hn ih =>
    rw [ih]
    simp [put, putAll, apply, hn]
  | case4 n as hn =>
    refine OnlyTooLong.ext (fun e he => ?_)
      ((onlyTooLong_put (native .successor) σ).bind fun y =>
        (onlyTooLong_putAll (numeral n :: as) σ).bind fun ys => onlyTooLong_apply y ys) fun z => ?_
    · cases he
      rfl
    · simp only [put, putAll, pure_bind, bind_assoc, bind_eq_ok_iff, apply, hn, if_false]
      constructor
      · rintro ⟨_, ⟨⟩, -⟩
      · rintro ⟨_, -, ⟨⟩⟩
  | case5 x a as flat unmet => simp [put]

/-- What is put into a skeleton below one more lambda. -/
theorem lift_put {x y : Skeleton} (h : x.put τ = .ok y) : x.lift.put (under τ) = .ok y.lift := by
  have below : under τ ∘ Place.lift = move Place.lift ∘ τ := funext (under_lift τ)
  rw [lift, put_move, below, put_comp_move, h]
  rfl

/-- What is put below one more lambda, where all that is put has been put into. -/
theorem under_put (h : ∀ p, (σ p).put τ = .ok (ρ p)) (p : Place) :
    (under σ p).put (under τ) = .ok (under ρ p) := by
  cases p with
  | bound i =>
    cases i with
    | zero => rfl
    | succ i => exact lift_put (h _)
  | free v => exact lift_put (h _)

mutual

/-- To put twice is to put at each place what comes of putting twice there. -/
theorem put_put : ∀ (x : Skeleton) {σ τ ρ : Place → Skeleton},
    (∀ p, (σ p).put τ = .ok (ρ p)) → x.put σ >>= put τ = x.put ρ
  | var p, _, _, _, h => h p
  | native _, _, _, _, _ => rfl
  | foreign _, _, _, _, _ => rfl
  | named _ _, _, _, _, _ => rfl
  | lam b, σ, τ, ρ, h => by
    rw [put, put, ← put_put b (under_put h), bind_assoc, bind_assoc]
    rfl
  | app f as, σ, τ, ρ, h => by
    -- the head is put twice before the arguments are put once, or after
    refine OnlyTooLong.ext ((onlyTooLong_put (app f as) σ).bind fun y => onlyTooLong_put y τ)
      (onlyTooLong_put (app f as) ρ) fun z => ?_
    simp only [put, ← put_put f h, ← putAll_putAll as h, bind_assoc, bind_eq_ok_iff, put_apply]
    constructor
    · rintro ⟨f', hf, as', has, f'', hf', as'', has', hz⟩
      exact ⟨f', hf, f'', hf', as', has, as'', has', hz⟩
    · rintro ⟨f', hf, f'', hf', as', has, as'', has', hz⟩
      exact ⟨f', hf, as', has, f'', hf', as'', has', hz⟩

theorem putAll_putAll : ∀ (xs : List Skeleton) {σ τ ρ : Place → Skeleton},
    (∀ p, (σ p).put τ = .ok (ρ p)) → putAll σ xs >>= putAll τ = putAll ρ xs
  | [], _, _, _, _ => rfl
  | x :: xs, σ, τ, ρ, h => by
    refine OnlyTooLong.ext
      ((onlyTooLong_putAll (x :: xs) σ).bind fun ys => onlyTooLong_putAll ys τ)
      (onlyTooLong_putAll (x :: xs) ρ) fun z => ?_
    simp only [putAll, ← put_put x h, ← putAll_putAll xs h, bind_assoc, bind_eq_ok_iff, pure_bind]
    constructor
    · rintro ⟨y, hy, ys, hys, y', hy', ys', hys', hz⟩
      exact ⟨y, hy, y', hy', ys, hys, ys', hys', hz⟩
    · rintro ⟨y, hy, y', hy', ys, hys, ys', hys', hz⟩
      exact ⟨y, hy, ys, hys, y', hy', ys', hys', hz⟩

end

end Skeleton

end Combinatory
