import Combinatory.Proofs.Combination.Terms
import Combinatory.Symbols

/-!
# Symbols of combinations

The symbols of a combination are its variables and combinators from left to right. All of them can
be counted, so the engine can always tell whether a variable is mentioned.
-/

namespace Combinatory

namespace Combination

/-- The variables and combinators from left to right. -/
def symbols : Combination → List Symbol
  | var v => [.var v]
  | native c => [.native c]
  | app f a => f.symbols ++ a.symbols

/-- The symbols of a spine are those of its head and of its arguments. -/
theorem symbols_apps (t : Combination) (as : List Combination) :
    (t.apps as).symbols = t.symbols ++ as.flatMap symbols := by
  induction as generalizing t with
  | nil => simp
  | cons a as ih => rw [apps_cons, ih, symbols, List.flatMap_cons, List.append_assoc]

/-- The variables among the symbols are those that are mentioned. -/
theorem var_mem_symbols {v : Variable} {t : Combination} :
    Symbol.var v ∈ t.symbols ↔ t.Mentions v := by
  induction t with
  | var w => simp [symbols, Mentions]
  | native c => simp [symbols, Mentions]
  | app f a ihf iha => simp [symbols, Mentions, ihf, iha]

/-- Every symbol can be counted. -/
theorem uncountable?_eq_none {t : Combination} {x : Symbol} (hx : x ∈ t.symbols) :
    x.uncountable? = none := by
  induction t with
  | var w =>
    rw [List.mem_singleton.mp hx]
    rfl
  | native c =>
    rw [List.mem_singleton.mp hx]
    rfl
  | app f a ihf iha => exact (List.mem_append.mp hx).elim ihf iha

end Combination

instance (v : Variable) (t : Combination) : Decidable (t.Mentions v) :=
  decidable_of_iff (Symbol.var v ∈ t.symbols) Combination.var_mem_symbols

namespace Term

mutual

/-- The symbols of a term that is a combination come before the others. -/
theorem symbolsUnder_eq : ∀ {t : Term}, t.IsCombination → ∀ rest : List Symbol,
    symbolsUnder [] t rest = t.combination.symbols ++ rest
  | var v, _, rest => rfl
  | native c, _, rest => rfl
  | app n h as, ⟨hh, _, has⟩, rest => by
    rw [symbolsUnder, symbolsUnder_eq hh.isCombination, symbolsOfAll_eq has, combination,
      Combination.symbols_apps, List.append_assoc]
  | foreign _, ht, _ => ht.elim
  | named _ _, ht, _ => ht.elim
  | lam _ _, ht, _ => ht.elim

theorem symbolsOfAll_eq : ∀ {ts : List Term}, AreCombinations ts → ∀ rest : List Symbol,
    symbolsOfAll [] ts rest = (combinations ts).flatMap Combination.symbols ++ rest
  | [], _, rest => rfl
  | t :: ts, ⟨ht, hts⟩, rest => by
    rw [symbolsOfAll, symbolsUnder_eq ht, symbolsOfAll_eq hts, combinations, List.flatMap_cons,
      List.append_assoc]

end

/-- The symbols of a combination are counted. -/
theorem IsCombination.counted_eq {t : Term} (ht : t.IsCombination) :
    counted t = pure t.combination.symbols := by
  have same : t.symbols = t.combination.symbols := by
    rw [symbols, symbolsUnder_eq ht, List.append_nil]
  have countable : t.combination.symbols.reverse.findSome? Symbol.uncountable? = none := by
    refine List.findSome?_eq_none_iff.mpr fun x hx => ?_
    exact Combination.uncountable?_eq_none (List.mem_reverse.mp hx)
  rw [counted, same, countable]

/-- Whether a combination mentions a variable is decided. -/
theorem Forms.mentions_eq {t : Term} {c : Combination} (ht : t.Forms c) (v : Variable) :
    mentions v t = pure (decide (c.Mentions v)) := by
  rw [mentions, ht.isCombination.counted_eq, pure_bind, ht.combination]
  congr 1
  rw [Bool.eq_iff_iff, List.contains_iff_mem, decide_eq_true_iff, Combination.var_mem_symbols]

end Term

end Combinatory
