import Combinatory.Proofs.Meaning.Bracket
import Mathlib.Algebra.GroupWithZero.Nat
import Mathlib.Data.Multiset.AddSub

/-!
# Weight and symbols without recursion

What a term weighs, and how often each symbol occurs in it, can be found with a list of the terms
that are still to be looked at. The term on top of the list is taken off, and either it is counted
itself or its parts are put on the list, so that the last argument of an application is looked at
first. This gives what the recursions give (`Term.weighFrom_singleton`, `Term.countFrom_singleton`),
down to the literal that is reported where one cannot be counted.
-/

namespace Combinatory

namespace Term

theorem sizeAll_eq_sum (ts : List Term) : sizeAll ts = (ts.map size).sum + 1 := by
  induction ts with
  | nil => rfl
  | cons t ts ih => simp [sizeAll, ih, Nat.add_assoc]

theorem weightAll_eq_sum (ts : List Term) : weightAll ts = (ts.map weight).sum := by
  induction ts with
  | nil => rfl
  | cons t ts ih => simp [weightAll, ih]

/-! ### Weight -/

/-- Adds what some terms weigh to a total. -/
def weighFrom (stack : List Term) (total : Nat) : Nat :=
  match stack with
  | [] => total
  | var _ :: stack => weighFrom stack total
  | app _ h as :: stack => weighFrom (as.reverseAux (h :: stack)) total
  | lam _ b :: stack => weighFrom (b :: stack) (total + 1)
  | named info d :: stack =>
    if info.isTerminal then weighFrom stack (total + 1) else weighFrom (d :: stack) total
  | native _ :: stack => weighFrom stack (total + 1)
  | foreign _ :: stack => weighFrom stack (total + 1)
termination_by (stack.map size).sum
decreasing_by
  all_goals
    simp [size, sizeAll_eq_sum, List.sum_reverse]
    try omega

/-- What is on the list is still to be added. -/
theorem weighFrom_eq (stack : List Term) (total : Nat) :
    weighFrom stack total = total + (stack.map weight).sum := by
  fun_induction weighFrom stack total with
  | case1 total => simp
  | case2 total v stack ih => simp [ih, weight]
  | case3 total n h as stack ih =>
    rw [ih, List.reverseAux_eq]
    simp [weight, weightAll_eq_sum, List.sum_reverse]
    omega
  | case4 total v b stack ih =>
    simp [ih, weight]
    omega
  | case5 total info d stack h ih =>
    simp [ih, weight, h]
    omega
  | case6 total info d stack h ih => simp [ih, weight, h]
  | case7 total c stack ih =>
    simp [ih, weight]
    omega
  | case8 total x stack ih =>
    simp [ih, weight]
    omega

/-- A term alone on the list is weighed. -/
theorem weighFrom_singleton (t : Term) : weighFrom [t] 0 = t.weight := by
  simp [weighFrom_eq]

/-! ### Symbols -/

/-- One more occurrence of a symbol, if it can be counted. -/
def countSymbol (y : Symbol) (out : Multiset Symbol) : Engine (Multiset Symbol) :=
  match y.uncountable? with
  | some l => throw (.notCountable l.typeName)
  | none => pure (y ::ₘ out)

/-- Terms with the variables that are bound around them. -/
def boundBy (bound : List Variable) (ts : List Term) : List (Term × List Variable) :=
  ts.map (·, bound)

theorem sum_size_boundBy (bound : List Variable) (ts : List Term) :
    ((boundBy bound ts).map fun p => p.1.size).sum = (ts.map size).sum := by
  rw [boundBy, List.map_map]
  rfl

/-- Adds the occurrences of symbols in some terms to what was counted; with each term stand the
variables that are bound around it, whose occurrences are left out. -/
def countFrom (stack : List (Term × List Variable)) (out : Multiset Symbol) :
    Engine (Multiset Symbol) :=
  match stack with
  | [] => pure out
  | (var v, bound) :: stack =>
    if bound.contains v then countFrom stack out
    else do countFrom stack (← countSymbol (.var v) out)
  | (app _ h as, bound) :: stack =>
    countFrom ((boundBy bound as).reverseAux ((h, bound) :: stack)) out
  | (lam v b, bound) :: stack => do
    countFrom ((b, v :: bound) :: stack) (← countSymbol (.native .lambdaMark) out)
  | (named info d, bound) :: stack =>
    if info.isTerminal then do countFrom stack (← countSymbol (.named info) out)
    else countFrom ((d, bound) :: stack) out
  | (native c, _) :: stack => do countFrom stack (← countSymbol (.native c) out)
  | (foreign x, _) :: stack => do countFrom stack (← countSymbol (.foreign x) out)
termination_by (stack.map fun p => p.1.size).sum
decreasing_by
  all_goals
    simp [size, sizeAll_eq_sum, List.sum_reverse, sum_size_boundBy]
    try omega

/-- Adds the occurrences of some symbols. The first one that cannot be counted is reported. -/
def countAll (ys : List Symbol) (out : Multiset Symbol) : Engine (Multiset Symbol) :=
  match ys.findSome? Symbol.uncountable? with
  | some l => throw (.notCountable l.typeName)
  | none => pure (ys + out)

theorem countAll_nil (out : Multiset Symbol) : countAll [] out = pure out := by
  simp [countAll]

theorem countAll_cons (y : Symbol) (ys : List Symbol) (out : Multiset Symbol) :
    countAll (y :: ys) out = countSymbol y out >>= countAll ys := by
  cases hy : y.uncountable? with
  | some l => simp [countAll, countSymbol, hy]; rfl
  | none =>
    have moved : ((y :: ys : List Symbol) : Multiset Symbol) + out = ys + y ::ₘ out := by
      rw [← Multiset.cons_coe, Multiset.cons_add, Multiset.add_cons]
    simp [countAll, countSymbol, hy, moved]

/-- When a lambda is counted does not matter, since it can always be. -/
theorem countAll_lambdaMark (xs ys : List Symbol) (out : Multiset Symbol) :
    countAll (xs ++ .native .lambdaMark :: ys) out =
      countAll (xs ++ ys) (.native .lambdaMark ::ₘ out) := by
  have moved : ((xs ++ .native .lambdaMark :: ys : List Symbol) : Multiset Symbol) + out =
      (xs ++ ys : List Symbol) + .native .lambdaMark ::ₘ out := by
    rw [← Multiset.coe_add, ← Multiset.coe_add, ← Multiset.cons_coe, Multiset.add_cons,
      Multiset.cons_add, Multiset.add_cons]
  have mark : Symbol.uncountable? (.native .lambdaMark) = none := rfl
  rw [countAll, countAll, moved]
  simp [mark]

/-- The symbols of the terms on the list; of each term the last one comes first. -/
def symbolsOn (stack : List (Term × List Variable)) : List Symbol :=
  stack.flatMap fun p => (symbolsUnder p.2 p.1 []).reverse

theorem symbolsOn_cons (t : Term) (bound : List Variable) (stack : List (Term × List Variable)) :
    symbolsOn ((t, bound) :: stack) = (symbolsUnder bound t []).reverse ++ symbolsOn stack := by
  simp [symbolsOn]

/-- The parts of an application stand for it. -/
theorem symbolsOn_parts (bound : List Variable) (n : Nat) (h : Term) (as : List Term)
    (stack : List (Term × List Variable)) :
    symbolsOn ((boundBy bound as).reverseAux ((h, bound) :: stack)) =
      symbolsOn ((app n h as, bound) :: stack) := by
  have args : ∀ (as : List Term) (stack : List (Term × List Variable)),
      symbolsOn ((boundBy bound as).reverseAux stack) =
        (symbolsOfAll bound as []).reverse ++ symbolsOn stack := by
    intro as
    induction as with
    | nil => exact fun _ => rfl
    | cons a as ih =>
      intro stack
      rw [boundBy, List.map_cons, List.reverseAux_cons]
      exact (ih _).trans (by
        rw [symbolsOn_cons, symbolsOfAll,
          symbolsUnder_eq_append bound a (symbolsOfAll bound as []), List.reverse_append,
          List.append_assoc])
  rw [args, symbolsOn_cons, symbolsOn_cons, symbolsUnder,
    symbolsUnder_eq_append bound h (symbolsOfAll bound as []), List.reverse_append,
    List.append_assoc]

/-- What is on the list is still to be counted, the last symbol first. -/
theorem countFrom_eq (stack : List (Term × List Variable)) (out : Multiset Symbol) :
    countFrom stack out = countAll (symbolsOn stack) out := by
  have one {y : Symbol} {ys : List Symbol} {out : Multiset Symbol}
      {f : Multiset Symbol → Engine (Multiset Symbol)} (h : ∀ out, f out = countAll ys out) :
      (countSymbol y out >>= fun out => f out) = countAll (y :: ys) out := by
    rw [countAll_cons]
    exact bind_congr h
  fun_induction countFrom stack out with
  | case1 out => exact (countAll_nil out).symm
  | case2 out v bound stack h ih =>
    rw [ih, symbolsOn_cons, symbolsUnder, if_pos h]
    rfl
  | case3 out v bound stack h ih =>
    rw [symbolsOn_cons, symbolsUnder, if_neg h]
    exact one ih
  | case4 out n h as bound stack ih => rw [ih, symbolsOn_parts bound n]
  | case5 out v b bound stack ih =>
    rw [symbolsOn_cons, symbolsUnder, List.reverse_cons, List.append_assoc, List.singleton_append,
      countAll_lambdaMark, ← symbolsOn_cons]
    exact ih _
  | case6 out info d bound stack h ih =>
    rw [symbolsOn_cons, symbolsUnder, if_pos h]
    exact one ih
  | case7 out info d bound stack h ih =>
    rw [ih, symbolsOn_cons, symbolsOn_cons, symbolsUnder, if_neg h]
  | case8 out c bound stack ih =>
    rw [symbolsOn_cons, symbolsUnder]
    exact one ih
  | case9 out x bound stack ih =>
    rw [symbolsOn_cons, symbolsUnder]
    exact one ih

/-- The symbols of a term alone on the list are counted, and the same literal is reported where one
cannot be. -/
theorem countFrom_singleton (t : Term) :
    countFrom [(t, [])] 0 = (do return ((← t.counted) : Multiset Symbol)) := by
  have all : symbolsOn [(t, [])] = t.symbols.reverse := by simp [symbolsOn, symbols]
  rw [countFrom_eq, all, countAll, counted]
  cases t.symbols.reverse.findSome? Symbol.uncountable? with
  | some l => rfl
  | none => simp [Multiset.coe_reverse]

end Term

end Combinatory
