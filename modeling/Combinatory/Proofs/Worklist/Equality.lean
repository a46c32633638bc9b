import Combinatory.Proofs.Answers
import Combinatory.Proofs.Invariant
import Combinatory.Proofs.Worklist
import Mathlib.Algebra.Order.BigOperators.Group.List
import Mathlib.Algebra.Order.Group.Nat
import Mathlib.Data.Multiset.DershowitzManna
import Mathlib.Data.Prod.Lex
import Mathlib.Order.WithBot

/-!
# Equality without recursion

Whether two terms are equal can be found with a list of the pairs that are still to be compared. The
pair on top is taken off; if its terms are not told apart at sight, the pairs on which their
equality depends are put on the list: heads and arguments of two applications, or the bodies of two
lambdas with the same fresh variable in both. Lambdas may be opened only so deep, and below a lambda
less deep than outside of it. So every round puts pairs in the place of one that come before it in a
well-founded order, and the rounds come to an end.

A pair is equal if and only if all pairs of its round are (`Term.Pair.equal_eq_round`), so what the
rounds find is whether all pairs on the list are equal (`Term.comparePairs_eq_allEqual`). For two
terms alone on the list this is what the recursion gives, with the same fresh variables and the same
failures (`Term.comparePairs_singleton`).
-/

namespace Combinatory

namespace Term

/-- Two terms that are to be compared, and how deep lambdas may be opened in them. That is not fixed
outside of all lambdas. -/
structure Pair where
  left : Term
  right : Term
  depth : Option Nat

/-- How deep lambdas may be opened in the body of one that is opened itself, if it may be. -/
def depthBelow (b : Term) : Option Nat → Option Nat
  | none => some b.rebuildDepth
  | some 0 => none
  | some (d + 1) => some d

/-- The bodies of two lambdas with the same fresh variable in both. -/
def openBodies (R : Rules) (depth : Option Nat) (v : Variable) (b : Term) (w : Variable)
    (c : Term) : Engine Pair :=
  match depthBelow b depth with
  | none => throw .tooDeep
  | some d => do
    let probe ← Engine.freshVariable "t"
    let b' ← instantiate R v b (var probe)
    let c' ← instantiate R w c (var probe)
    return ⟨b', c', some d⟩

/-- The arguments of two applications, place by place. -/
def pairAll (depth : Option Nat) (as bs : List Term) : List Pair :=
  (as.zip bs).map fun ab => ⟨ab.1, ab.2, depth⟩

namespace Pair

/-- The pairs on which it depends whether two terms are equal, or none if they are not. -/
def round (R : Rules) (p : Pair) : Engine (Option (List Pair)) :=
  if p.left = p.right then pure (some [])
  else if p.left.unwrapped = p.right.unwrapped then pure (some [])
  else
    match p.left.unwrapped, p.right.unwrapped with
    | app _ h as, app _ g bs =>
      if as.length ≠ bs.length then pure none
      else pure (some (⟨h, g, p.depth⟩ :: pairAll p.depth as bs))
    | foreign x, foreign y => pure (if x.isSame y then some [] else none)
    | lam v b, lam w c => do return some [← openBodies R p.depth v b w c]
    | _, _ => pure none

/-- Pairs are ordered by the depth that is allowed, and then by the size of the left term. -/
def rank (p : Pair) : WithTop Nat ×ₗ Nat :=
  toLex (p.depth.elim ⊤ WithTop.some, p.left.size)

end Pair

/-! ### The rounds come to an end -/

theorem size_unwrapped_le : ∀ t : Term, t.unwrapped.size ≤ t.size
  | named info d => by
    by_cases h : info.isTerminal
    · simp [unwrapped, h]
    · have := size_unwrapped_le d
      simp [unwrapped, h, size]
      omega
  | var _ | native _ | foreign _ | lam _ _ | app _ _ _ => by simp [unwrapped]

theorem mem_pairAll {depth : Option Nat} {as bs : List Term} {q : Pair}
    (hq : q ∈ pairAll depth as bs) : q.left ∈ as ∧ q.depth = depth := by
  obtain ⟨ab, hab, rfl⟩ := List.mem_map.mp hq
  exact ⟨(List.of_mem_zip hab).1, rfl⟩

/-- Bodies are compared at the depth below their lambdas. -/
theorem givesOnly_openBodies (R : Rules) (depth : Option Nat) (v : Variable) (b : Term)
    (w : Variable) (c : Term) : GivesOnly (openBodies R depth v b w c) fun q =>
      ∃ d, depthBelow b depth = some d ∧ q.depth = some d := by
  unfold openBodies
  split
  · exact .throw trivial
  · next d hd =>
    apply (givesOnly_anything _).bind
    intro probe _
    apply (givesOnly_anything _).bind
    intro b' _
    apply (givesOnly_anything _).bind
    intro c' _
    exact .pure ⟨d, hd, rfl⟩

namespace Pair

variable {p q : Pair}

/-- At the same depth the smaller term comes first. -/
theorem rank_lt_of_size (hd : q.depth = p.depth) (hs : q.left.size < p.left.size) :
    q.rank < p.rank := by
  rw [rank, rank, hd]
  exact Prod.Lex.toLex_lt_toLex.mpr (.inr ⟨rfl, hs⟩)

/-- Bodies come before their lambdas. -/
theorem rank_lt_of_depth {b : Term} {d : Nat} (hd : depthBelow b p.depth = some d)
    (hq : q.depth = some d) : q.rank < p.rank := by
  refine Prod.Lex.toLex_lt_toLex.mpr (.inl ?_)
  rw [hq]
  cases hp : p.depth with
  | none => exact WithTop.coe_lt_top d
  | some m =>
    rw [hp] at hd
    cases m with
    | zero => cases hd
    | succ m =>
      cases hd
      exact WithTop.coe_lt_coe.mpr (Nat.lt_succ_self d)

/-- The pairs of a round come before the pair in whose place they are put. -/
theorem rank_lt_of_round (R : Rules) (p : Pair) : GivesOnly (p.round R) fun o =>
    ∀ ps, o = some ps → ∀ q ∈ ps, q.rank < p.rank := by
  have nothing : ∀ ps : List Pair, some [] = some ps → ∀ q ∈ ps, q.rank < p.rank := by
    rintro _ ⟨⟩
    exact List.forall_mem_nil _
  unfold round
  split
  · exact .pure nothing
  split
  · exact .pure nothing
  split
  · next m h as n g bs happ _ =>
    split
    · exact .pure nofun
    · refine .pure ?_
      rintro _ ⟨⟩
      have whole : (app m h as).size ≤ p.left.size := happ ▸ size_unwrapped_le p.left
      rw [size, sizeAll_eq_sum] at whole
      refine List.forall_mem_cons.mpr ⟨rank_lt_of_size rfl ?_, fun q hq => ?_⟩
      · simp only
        omega
      · obtain ⟨hleft, hdepth⟩ := mem_pairAll hq
        have := List.le_sum_of_mem (List.mem_map_of_mem (f := size) hleft)
        refine rank_lt_of_size hdepth ?_
        omega
  · refine .pure ?_
    split
    · exact nothing
    · exact nofun
  · next v b w c _ _ =>
    apply (givesOnly_openBodies R p.depth v b w c).bind
    rintro q ⟨d, hd, hq⟩
    refine .pure ?_
    rintro _ ⟨⟩
    exact List.forall_mem_singleton.mpr (rank_lt_of_depth hd hq)
  · exact .pure nofun

end Pair

/-- Compares pairs until none is left or two terms are told apart. -/
def comparePairs (R : Rules) (pairs : List Pair) (s : Store) : EStateM.Result Failure Store Bool :=
  match pairs with
  | [] => .ok true s
  | p :: rest =>
    match _h : p.round R s with
    | .error e s => .error e s
    | .ok none s => .ok false s
    | .ok (some ps) s => comparePairs R (ps ++ rest) s
termination_by (pairs.map Pair.rank : Multiset (WithTop Nat ×ₗ Nat))
decreasing_by
  have less := (p.rank_lt_of_round R).of_ok _h ps rfl
  refine ⟨rest.map Pair.rank, ps.map Pair.rank, {p.rank}, Multiset.singleton_ne_zero _, ?_, ?_, ?_⟩
  · rw [List.map_append, ← Multiset.coe_add, add_comm]
  · rw [List.map_cons, ← Multiset.cons_coe, ← Multiset.singleton_add, add_comm]
  · intro r hr
    obtain ⟨q, hq, rfl⟩ := List.mem_map.mp (Multiset.mem_coe.mp hr)
    exact ⟨p.rank, Multiset.mem_singleton_self _, less q hq⟩

/-! ### The recursion gives the same -/

/-- How two lambdas are compared at a depth. -/
def equalAt (R : Rules) : Option Nat → Variable → Term → Variable → Term → Engine Bool
  | none => equalUnder R
  | some d => equalWithin R d

/-- Whether the terms of a pair are equal. -/
def Pair.equal (R : Rules) (p : Pair) : Engine Bool := equalBy (equalAt R p.depth) p.left p.right

/-- Whether the terms of each pair are equal, asked one after another. -/
def allEqual (R : Rules) : List Pair → Engine Bool
  | [] => pure true
  | p :: ps => do if ← p.equal R then allEqual R ps else return false

theorem allEqual_singleton (R : Rules) (p : Pair) : allEqual R [p] = p.equal R := by
  refine (bind_congr fun b => ?_).trans (bind_pure (p.equal R))
  cases b <;> rfl

theorem allEqual_append (R : Rules) (ps qs : List Pair) : allEqual R (ps ++ qs) = (do
    if ← allEqual R ps then allEqual R qs else return false) := by
  induction ps with
  | nil => rfl
  | cons p ps ih =>
    rw [List.cons_append, allEqual, allEqual, bind_assoc, ih]
    refine bind_congr fun b => ?_
    cases b <;> rfl

/-- Arguments are compared place by place. -/
theorem allEqual_pairAll (R : Rules) (depth : Option Nat) {as bs : List Term}
    (hlen : as.length = bs.length) :
    allEqual R (pairAll depth as bs) = equalAllBy (equalAt R depth) as bs := by
  induction as generalizing bs with
  | nil =>
    cases bs with
    | nil => rw [equalAllBy]; rfl
    | cons b bs => cases hlen
  | cons a as ih =>
    cases bs with
    | nil => cases hlen
    | cons b bs =>
      rw [equalAllBy, ← ih (Nat.succ.inj hlen)]
      rfl

/-- Lambdas are compared by their bodies with the same fresh variable in both. -/
theorem equalAt_eq (R : Rules) (depth : Option Nat) (v : Variable) (b : Term) (w : Variable)
    (c : Term) : equalAt R depth v b w c = openBodies R depth v b w c >>= Pair.equal R := by
  have step (d : Nat) : equalWithin R (d + 1) v b w c = (do
      let probe ← Engine.freshVariable "t"
      let b' ← instantiate R v b (var probe)
      let c' ← instantiate R w c (var probe)
      Pair.equal R ⟨b', c', some d⟩) := rfl
  match depth with
  | none => simp only [equalAt, equalUnder, openBodies, depthBelow, step, bind_assoc, pure_bind]
  | some 0 => rfl
  | some (d + 1) => simp only [equalAt, openBodies, depthBelow, step, bind_assoc, pure_bind]

/-- What is found in a round depends on nothing but the terms with names looked through. -/
theorem Pair.round_eq (R : Rules) (p : Pair) : p.round R =
    if p.left.unwrapped = p.right.unwrapped then pure (some [])
    else
      match p.left.unwrapped, p.right.unwrapped with
      | app _ h as, app _ g bs =>
        if as.length ≠ bs.length then pure none
        else pure (some (⟨h, g, p.depth⟩ :: pairAll p.depth as bs))
      | foreign x, foreign y => pure (if x.isSame y then some [] else none)
      | lam v b, lam w c => do return some [← openBodies R p.depth v b w c]
      | _, _ => pure none := by
  rw [round]
  by_cases h : p.left = p.right
  · rw [if_pos h, if_pos (congrArg unwrapped h)]
  · rw [if_neg h]

/-- Terms that are the same with names looked through are equal. -/
theorem equalBy_of_unwrapped_eq (under : Variable → Term → Variable → Term → Engine Bool)
    (u : Term) : ∀ t : Term, t.unwrapped = u.unwrapped → equalBy under t u = pure true
  | named info d, h => by
    rw [equalBy]
    by_cases hterm : info.isTerminal
    · simp only [unwrapped, if_pos hterm] at h
      simp [hterm, ← h]
    · simp only [unwrapped, if_neg hterm] at h
      rw [if_neg hterm, equalBy_of_unwrapped_eq under u d h, ite_self]
  | app m g as, h => by
    simp only [unwrapped] at h
    simp [equalBy, ← h, (told_self g under).1, (toldAll_self as under).1]
  | foreign x, h => by
    simp only [unwrapped] at h
    simp [equalBy, ← h, Foreign.isSame]
  | lam _ _, h | var _, h | native _, h => by
    simp only [unwrapped] at h
    simp [equalBy, ← h]

/-- Terms are equal if the pairs of their round are. -/
theorem Pair.equal_eq_round (R : Rules) (t u : Term) (depth : Option Nat) :
    Pair.equal R ⟨t, u, depth⟩ = (do
      match ← Pair.round R ⟨t, u, depth⟩ with
      | none => return false
      | some ps => allEqual R ps) := by
  by_cases hw : t.unwrapped = u.unwrapped
  · rw [Pair.equal, equalBy_of_unwrapped_eq _ u t hw, Pair.round_eq, if_pos hw]
    rfl
  have hne : t ≠ u := fun h => hw (congrArg unwrapped h)
  rw [Pair.equal, Pair.round_eq, if_neg hw]
  cases t with
  | named info d =>
    rw [equalBy, if_neg hne]
    by_cases hterm : info.isTerminal
    · simp only [unwrapped, if_pos hterm] at hw ⊢
      simp [hw]
    · -- the name is looked through, and its definition is asked in its place
      simp only [unwrapped, if_neg hterm] at hw ⊢
      have ih := Pair.equal_eq_round R d u depth
      rw [Pair.round_eq, if_neg hw] at ih
      exact ih
  | app m h as =>
    rw [equalBy, if_neg hne]
    simp only [unwrapped] at hw ⊢
    cases hu : u.unwrapped with
    | app n g bs =>
      simp only
      split
      · rfl
      · next hlen =>
        change _ = allEqual R (⟨h, g, depth⟩ :: pairAll depth as bs)
        rw [allEqual, allEqual_pairAll R depth (not_not.mp hlen)]
        rfl
    | _ => rfl
  | foreign x =>
    rw [equalBy, if_neg hne]
    simp only [unwrapped] at hw ⊢
    cases hu : u.unwrapped with
    | foreign y =>
      simp only
      cases x.isSame y <;> rfl
    | _ => rfl
  | lam v b =>
    rw [equalBy, if_neg hne]
    simp only [unwrapped] at hw ⊢
    cases hu : u.unwrapped with
    | lam w c =>
      rw [hu] at hw
      simp only [if_neg hw]
      rw [equalAt_eq, bind_assoc]
      exact bind_congr fun q => (allEqual_singleton R q).symm
    | _ => rfl
  | var v =>
    simp only [unwrapped] at hw ⊢
    simp [equalBy, hne, hw]
  | native c =>
    simp only [unwrapped] at hw ⊢
    simp [equalBy, hne, hw]

/-- The pairs on the list are found to be all equal or not. -/
theorem comparePairs_eq_allEqual (R : Rules) (pairs : List Pair) :
    comparePairs R pairs = allEqual R pairs := by
  funext s
  fun_induction comparePairs R pairs s with
  | case1 s => rfl
  | case2 s p rest e s' h =>
    rw [allEqual, Pair.equal_eq_round, bind_assoc, Engine.bind_of_error h]
  | case3 s p rest s' h =>
    rw [allEqual, Pair.equal_eq_round, bind_assoc, Engine.bind_of_ok h]
    rfl
  | case4 s p rest ps s' h ih =>
    rw [ih, allEqual_append, allEqual, Pair.equal_eq_round, bind_assoc, Engine.bind_of_ok h]

/-- Two terms alone on the list are compared. -/
theorem comparePairs_singleton (R : Rules) (t u : Term) :
    comparePairs R [⟨t, u, none⟩] = equal R t u := by
  rw [comparePairs_eq_allEqual, allEqual_singleton]
  rfl

end Term

end Combinatory
