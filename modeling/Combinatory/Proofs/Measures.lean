import Combinatory.Proofs.Assembly
import Combinatory.Proofs.Making
import Mathlib.Algebra.BigOperators.Group.List.Lemmas
import Mathlib.Algebra.GroupWithZero.Nat

/-!
# Measures of equal terms

A skeleton has symbols of its own: those of its free places, of its other leaves, and the lambda
mark for every lambda. The symbols of a term are those of its skeleton, in the same order, as long
as the variables that are left out are the ones that stand for lambdas. So whatever is counted of
the symbols is the same for terms with the same skeleton, and these are the terms that are equal.
-/

namespace Combinatory

/-- The symbol that a place counts as. The variable of a lambda is none. -/
def Place.symbols : Place → List Symbol
  | bound _ => []
  | free v => [.var v]

namespace Skeleton

mutual

/-- The occurrences of symbols in a skeleton, from left to right. -/
def symbols : Skeleton → List Symbol
  | var p => p.symbols
  | native c => [.native c]
  | foreign x => [.foreign x]
  | named info _ => [.named info]
  | lam b => .native .lambdaMark :: symbols b
  | app h as => symbols h ++ symbolsOfAll as

/-- The occurrences of symbols in a list of skeletons. -/
def symbolsOfAll : List Skeleton → List Symbol
  | [] => []
  | a :: as => symbols a ++ symbolsOfAll as

end

end Skeleton

namespace Places

/-- Whether the variables that stand for lambdas are those of a list, and the others are free. -/
def Binds (e : Places) (bound : List Variable) : Prop :=
  ∀ v, if v ∈ bound then ∃ i, e v = .bound i else e v = .free v

variable {e : Places} {bound : List Variable}

theorem binds_free : Binds .free [] := by
  intro v
  rw [if_neg List.not_mem_nil]

/-- One more lambda binds its variable. -/
theorem Binds.bind (h : e.Binds bound) (v : Variable) : (e.bind v).Binds (v :: bound) := by
  intro w
  by_cases hw : w = v
  · rw [if_pos (hw ▸ List.mem_cons_self), hw, bind_self]
    exact ⟨0, rfl⟩
  · have hmem : w ∈ v :: bound ↔ w ∈ bound := by simp [hw]
    have place := h w
    rw [bind_of_ne hw]
    split at place
    · next hwb =>
      obtain ⟨i, hi⟩ := place
      rw [if_pos (hmem.mpr hwb), hi]
      exact ⟨i + 1, rfl⟩
    · next hwb =>
      rw [if_neg (mt hmem.mp hwb), place]
      rfl

/-- A variable counts as its place does. -/
theorem Binds.symbols_place (h : e.Binds bound) (v : Variable) :
    (e v).symbols = if v ∈ bound then [] else [.var v] := by
  have place := h v
  split at place
  · next hv =>
    obtain ⟨i, hi⟩ := place
    rw [hi, if_pos hv]
    rfl
  · next hv =>
    rw [place, if_neg hv]
    rfl

end Places

namespace Term

variable {t u : Term}

mutual

/-- The symbols of a term are those of its skeleton. -/
theorem symbolsUnder_eq_skeleton : ∀ (t : Term) {e : Places} {bound : List Variable}
    (rest : List Symbol), e.Binds bound →
    symbolsUnder bound t rest = (t.skeleton e).symbols ++ rest
  | var v, e, bound, rest, h => by
    rw [symbolsUnder, skeleton, Skeleton.symbols, h.symbols_place]
    by_cases hv : v ∈ bound <;> simp [hv]
  | native _, _, _, _, _ => rfl
  | foreign _, _, _, _, _ => rfl
  | named info d, e, bound, rest, h => by
    rw [symbolsUnder, skeleton]
    split
    · rfl
    · exact symbolsUnder_eq_skeleton d rest h
  | lam v b, e, bound, rest, h => by
    rw [symbolsUnder, symbolsUnder_eq_skeleton b rest (h.bind v), skeleton, Skeleton.symbols,
      List.cons_append]
  | app _ hd as, e, bound, rest, h => by
    rw [symbolsUnder, symbolsOfAll_eq_skeletons as rest h, symbolsUnder_eq_skeleton hd _ h,
      skeleton, Skeleton.symbols, List.append_assoc]

theorem symbolsOfAll_eq_skeletons : ∀ (ts : List Term) {e : Places} {bound : List Variable}
    (rest : List Symbol), e.Binds bound →
    symbolsOfAll bound ts rest = Skeleton.symbolsOfAll (skeletons e ts) ++ rest
  | [], _, _, _, _ => rfl
  | t :: ts, e, bound, rest, h => by
    rw [symbolsOfAll, symbolsOfAll_eq_skeletons ts rest h, symbolsUnder_eq_skeleton t _ h,
      skeletons, Skeleton.symbolsOfAll, List.append_assoc]

end

/-- The symbols of a term depend on its skeleton only. -/
theorem SameSkeleton.symbols_eq (h : t.SameSkeleton u) : t.symbols = u.symbols := by
  rw [symbols, symbols, symbolsUnder_eq_skeleton t [] Places.binds_free,
    symbolsUnder_eq_skeleton u [] Places.binds_free, h]

/-- The weight of a term, from how often each of its symbols occurs. -/
theorem weight_eq_sum_count (t : Term) :
    t.weight = ((t.symbols.dedup.filter (! ·.isVar)).map t.symbols.count).sum := by
  rw [List.sum_map_count_dedup_filter_eq_countP, weight_eq_countP]

end Term

namespace Assembled

variable {s : Store} {ts : List Term}

/-- Terms that were put together and are equal, whenever that is asked, have the same weight, the
same symbols equally often, and the same free variables. They agree in whether the symbols can be
counted and are all variables, and in whether a lambda occurs. For any term without literals, these
measures hang together: the weight adds up how often the symbols occur that are not variables, and
it is nothing exactly when there are no others. -/
theorem measures_of_equal (h : Assembled s ts) (R : Rules) :
    (∀ t ∈ ts, ∀ u ∈ ts, ∀ s₁ s₂, s ≤ s₁ → t.equal R u s₁ = .ok true s₂ →
      t.weight = u.weight ∧ (∀ x, t.symbols.count x = u.symbols.count x) ∧
        t.freeVars = u.freeVars ∧ t.variablesOnly = u.variablesOnly ∧
        t.hasLambda = u.hasLambda) ∧
    ∀ t : Term, t.MadeOf .anything →
      t.weight = ((t.symbols.dedup.filter (! ·.isVar)).map t.symbols.count).sum ∧
      t.variablesOnly = pure (decide (t.weight = 0)) := by
  refine ⟨fun t ht u hu s₁ s₂ hs hequal => ?_, fun t ht => ?_⟩
  · have same : t.SameSkeleton u := by
      obtain ⟨answer, s', hr, -, -, -, hanswer⟩ :=
        Term.gives_equal (R := R) ((h.regular ht).later hs) ((h.regular hu).later hs)
      rw [hequal] at hr
      cases hr
      exact hanswer.mp rfl
    have symbols := same.symbols_eq
    refine ⟨?_, fun x => by rw [symbols], ?_, ?_, ?_⟩
    · rw [Term.weight_eq_countP, Term.weight_eq_countP, symbols]
    · rw [Term.freeVars, Term.freeVars, symbols]
    · rw [Term.variablesOnly, Term.variablesOnly, Term.counted, Term.counted, symbols]
    · rw [Term.hasLambda, Term.hasLambda, symbols]
  · exact ⟨t.weight_eq_sum_count, ht.variablesOnly_eq⟩

end Assembled

/-- A lambda and a name for its like, over another variable, weigh two each. -/
theorem measures_of_equal_sample :
    Assembled ⟨5, 5, ∅⟩ Likeness.terms ∧
      Likeness.first.equal (.plain 0) Likeness.name ⟨5, 5, ∅⟩ = .ok true ⟨6, 7, ∅⟩ ∧
      Likeness.first.weight = 2 ∧ Likeness.name.weight = Likeness.first.weight ∧
      Likeness.name.variablesOnly = pure false := by
  have equal : Likeness.first.equal (.plain 0) Likeness.name ⟨5, 5, ∅⟩ = .ok true ⟨6, 7, ∅⟩ := rfl
  have measures := Likeness.assembled.measures_of_equal (.plain 0)
  have agree := measures.1 Likeness.first (by simp [Likeness.terms]) Likeness.name
    (by simp [Likeness.terms]) _ _ (Store.le_refl _) equal
  have known := measures.2 Likeness.name
    ⟨trivial, fun _ => trivial, trivial, trivial, trivial⟩
  exact ⟨Likeness.assembled, equal, by decide, agree.1.symm, known.2⟩

end Combinatory
