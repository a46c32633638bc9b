import Combinatory.Engine

/-!
# Symbols and weight

The symbols of a term are its free variables, combinators and terminal names, and the lambda mark
once for every lambda. A name that is not terminal counts as its definition. A literal in the place
of a term counts as a symbol too, unless it is a list or a record: those cannot be counted. The
weight of a term is the number of symbols that are not variables.
-/

namespace Combinatory

/-- A leaf that counts as a symbol. -/
inductive Symbol where
  | var (v : Variable)
  | native (c : Native)
  | foreign (x : Foreign)
  | named (info : NameInfo)
deriving DecidableEq, Repr

namespace Symbol

/-- Whether the symbol is a variable. -/
def isVar : Symbol → Bool
  | var _ => true
  | _ => false

/-- The literal that the symbol is, if it is one that cannot be counted. -/
def uncountable? : Symbol → Option Literal
  | foreign x => if x.literal.isCountable then none else some x.literal
  | _ => none

end Symbol

namespace Term

mutual

/-- The occurrences of symbols, from left to right, put in front of `rest`; variables in `bound` are
left out. -/
def symbolsUnder (bound : List Variable) (t : Term) (rest : List Symbol) : List Symbol :=
  match t with
  | var v => if bound.contains v then rest else .var v :: rest
  | native c => .native c :: rest
  | foreign x => .foreign x :: rest
  | named info d => if info.isTerminal then .named info :: rest else symbolsUnder bound d rest
  | lam v b => .native .lambdaMark :: symbolsUnder (v :: bound) b rest
  | app _ h as => symbolsUnder bound h (symbolsOfAll bound as rest)

/-- The occurrences of symbols in a list of terms, put in front of `rest`. -/
def symbolsOfAll (bound : List Variable) (ts : List Term) (rest : List Symbol) : List Symbol :=
  match ts with
  | [] => rest
  | t :: ts => symbolsUnder bound t (symbolsOfAll bound ts rest)

end

/-- The occurrences of symbols in a term. -/
def symbols (t : Term) : List Symbol := symbolsUnder [] t []

/-- The occurrences of symbols in a term, all of which must be countable. Of several that are not,
the last one is reported. -/
def counted (t : Term) : Engine (List Symbol) :=
  match t.symbols.reverse.findSome? Symbol.uncountable? with
  | some l => throw (.notCountable l.typeName)
  | none => pure t.symbols

/-- Whether a variable is among the symbols of a term. -/
def mentions (v : Variable) (t : Term) : Engine Bool := do
  return (← t.counted).contains (.var v)

/-- The free variables among the symbols, each once. -/
def freeVars (t : Term) : List Variable :=
  (t.symbols.filterMap fun | .var v => some v | _ => none).eraseDups

/-- Whether the only symbols are variables. -/
def variablesOnly (t : Term) : Engine Bool := do
  return (← t.counted).all Symbol.isVar

/-- Whether a lambda occurs. -/
def hasLambda (t : Term) : Bool := t.symbols.contains (.native .lambdaMark)

mutual

/-- Variables are free; every other leaf and every binder costs one. -/
def weight : Term → Nat
  | var _ => 0
  | native _ => 1
  | foreign _ => 1
  | named info d => if info.isTerminal then 1 else weight d
  | lam _ b => weight b + 1
  | app _ h as => weight h + weightAll as

/-- The weight of a list of terms. -/
def weightAll : List Term → Nat
  | [] => 0
  | a :: as => weight a + weightAll as

end

mutual

/-- The weight counts the symbols that are not variables, whichever variables are bound. -/
theorem countP_symbolsUnder (bound : List Variable) :
    ∀ (t : Term) (rest : List Symbol),
      (symbolsUnder bound t rest).countP (! ·.isVar) = t.weight + rest.countP (! ·.isVar)
  | var v, rest => by
    by_cases h : v ∈ bound <;> simp [weight, symbolsUnder, h, Symbol.isVar]
  | native c, rest => by simp [weight, symbolsUnder, Symbol.isVar, Nat.add_comm]
  | foreign x, rest => by simp [weight, symbolsUnder, Symbol.isVar, Nat.add_comm]
  | named info d, rest => by
    by_cases h : info.isTerminal
    · simp [weight, symbolsUnder, h, Symbol.isVar, Nat.add_comm]
    · simp [weight, symbolsUnder, h, countP_symbolsUnder bound d]
  | lam v b, rest => by
    rw [symbolsUnder, List.countP_cons, countP_symbolsUnder (v :: bound) b, weight]
    simp [Symbol.isVar, Nat.add_right_comm]
  | app _ h as, rest => by
    simp [weight, symbolsUnder, countP_symbolsUnder bound h, countP_symbolsOfAll bound as,
      Nat.add_assoc]

/-- The weight of a list counts its symbols that are not variables. -/
theorem countP_symbolsOfAll (bound : List Variable) :
    ∀ (ts : List Term) (rest : List Symbol),
      (symbolsOfAll bound ts rest).countP (! ·.isVar) = weightAll ts + rest.countP (! ·.isVar)
  | [], rest => by simp [weightAll, symbolsOfAll]
  | t :: ts, rest => by
    simp [weightAll, symbolsOfAll, countP_symbolsUnder bound t, countP_symbolsOfAll bound ts,
      Nat.add_assoc]

end

/-- The weight of a term is the number of its symbols that are not variables. -/
theorem weight_eq_countP (t : Term) : t.weight = t.symbols.countP (! ·.isVar) := by
  rw [symbols, countP_symbolsUnder, List.countP_nil, Nat.add_zero]

end Term

end Combinatory
