import Combinatory.Equality

/-!
# Answers of the equality

The equality of terms is a computation of the engine, since lambdas are compared with a fresh
variable in their bodies. Where no lambdas have to be compared its answer depends on nothing but the
terms: it is the same in either order, whatever is said of lambdas and in every store (`Term.Told`).
A term is equal to itself, and the answer for two applications comes from those for their heads and
for their arguments, place by place.
-/

namespace Combinatory

namespace Term

variable {t u g h : Term} {as bs ts us : List Term} {m n : Nat} {b b' : Bool}

/-- Whether `b` is the answer to the equality of two terms, in either order and whatever is said of
lambdas. -/
def Told (b : Bool) (t u : Term) : Prop :=
  ∀ under, equalBy under t u = pure b ∧ equalBy under u t = pure b

/-- Whether `b` is the answer to the equality of two lists, place by place. -/
def ToldAll (b : Bool) (ts us : List Term) : Prop :=
  ∀ under, equalAllBy under ts us = pure b ∧ equalAllBy under us ts = pure b

/-- A term is equal to itself. -/
theorem told_self (t : Term) : Told true t t := by
  intro under
  unfold equalBy
  rw [if_pos rfl]
  exact ⟨rfl, rfl⟩

theorem toldAll_self (ts : List Term) : ToldAll true ts ts := by
  intro under
  induction ts with
  | nil =>
    unfold equalAllBy
    exact ⟨rfl, rfl⟩
  | cons t ts ih =>
    unfold equalAllBy
    rw [(told_self t under).1, pure_bind, if_pos rfl]
    exact ih

private theorem eq_of_pure_eq {α : Type} {a a' : α} (h : (pure a : Engine α) = pure a') :
    a = a' := by
  have result := congrFun h ⟨0, 0, ∅⟩
  injection result

theorem Told.symm (h : Told b t u) : Told b u t := fun under => (h under).symm

/-- There is one answer. -/
theorem Told.unique (h : Told b t u) (h' : Told b' t u) : b = b' :=
  eq_of_pure_eq ((h fun _ _ _ _ => pure true).1.symm.trans (h' _).1)

theorem ToldAll.unique (h : ToldAll b ts us) (h' : ToldAll b' ts us) : b = b' :=
  eq_of_pure_eq ((h fun _ _ _ _ => pure true).1.symm.trans (h' _).1)

/-- Lists of the same length are told place by place. -/
theorem toldAll_cons (h : Told b t u) (hs : ToldAll b' ts us) :
    ToldAll (b && b') (t :: ts) (u :: us) := by
  intro under
  unfold equalAllBy
  rw [(h under).1, (h under).2, pure_bind, pure_bind]
  cases b with
  | false => exact ⟨rfl, rfl⟩
  | true => exact hs under

/-- Applications are asked for their heads and then for their arguments. -/
theorem equalBy_app (under : Variable → Term → Variable → Term → Engine Bool)
    (hne : app m h as ≠ app n g bs) :
    equalBy under (app m h as) (app n g bs) = (do
      if as.length ≠ bs.length then return false
      if ← equalBy under h g then equalAllBy under as bs else return false) := by
  rw [equalBy, if_neg hne]
  rfl

/-- Of applications to the same number of arguments heads and arguments tell. -/
theorem told_app (hh : Told b h g) (has : ToldAll b' as bs) (hlen : as.length = bs.length) :
    Told (b && b') (app m h as) (app n g bs) := by
  intro under
  by_cases heq : app m h as = app n g bs
  · -- the same application: then the answers for its parts can only be that they are equal
    injection heq with hm hg has'
    subst hm hg has'
    obtain rfl := hh.unique (told_self h)
    obtain rfl := has.unique (toldAll_self as)
    exact told_self _ under
  · rw [equalBy_app under heq, equalBy_app under (Ne.symm heq), (hh under).1, (hh under).2,
      pure_bind, pure_bind, if_neg (not_not_intro hlen), if_neg (not_not_intro hlen.symm)]
    cases b with
    | false => exact ⟨rfl, rfl⟩
    | true => exact has under

/-- Applications with different heads are not equal, whatever their arguments. -/
theorem told_app_of_head (hh : Told false h g) (as bs : List Term) :
    Told false (app m h as) (app n g bs) := by
  intro under
  have heq : app m h as ≠ app n g bs := by
    intro heq
    injection heq with _ hg _
    subst hg
    cases hh.unique (told_self h)
  rw [equalBy_app under heq, equalBy_app under (Ne.symm heq), (hh under).1, (hh under).2]
  constructor <;> split <;> rfl

end Term

end Combinatory
