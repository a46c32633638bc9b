import Combinatory.Amount

/-!
# Terms of combinatory logic

A term is a free or bound variable, a primitive combinator, a named term, a one-argument
abstraction, or a head applied to several arguments at once. Variables, user combinators, names
and applications carry an identity: equal names do not make equal objects. A literal may stand where
a term is expected; it takes part in nothing, and building with it fails sooner or later. The
measures `size` and `pending` bound the recursions of the later modules.
-/

namespace Combinatory

/-- A variable is its identity; the name is only for display. -/
structure Variable where
  name : String
  ident : Int
deriving DecidableEq, Repr, Inhabited

/-- A combinator declared by the user. Its rule and its hook live outside the term, under its
identity. -/
structure UserNative where
  ident : Nat
  name : String
  arity : Nat
  /-- A text as a rule; `null` stands for none. -/
  note : Literal
  hooked : Bool
  arity_pos : 0 < arity
deriving DecidableEq, Repr

/-- The primitive combinators. -/
inductive Native where
  /-- `I x = x` -/
  | I
  /-- `K x y = x` -/
  | K
  /-- `S x y z = x z (y z)` -/
  | S
  /-- `B x y z = x (y z)` -/
  | B
  /-- `C x y z = x z y` -/
  | C
  /-- `W x y = x y y` -/
  | W
  /-- `+ n f x = f (n f x)` -/
  | successor
  /-- The numeral `n` applies its first argument to its second `n` times. -/
  | numeral (n : Nat)
  /-- Evaluates its argument to a numeral. -/
  | toNumeral
  /-- Stands for "a lambda occurs here" in symbol counts; no term may be headed by it. -/
  | lambdaMark
  | user (u : UserNative)
deriving DecidableEq, Repr

namespace Native

/-- The written name. -/
def name : Native → String
  | I => "I"
  | K => "K"
  | S => "S"
  | B => "B"
  | C => "C"
  | W => "W"
  | successor => "+"
  | numeral n => toString n
  | toNumeral => "!nat"
  | lambdaMark => "->"
  | user u => u.name

/-- How many arguments the rule waits for. -/
def arity : Native → Nat
  | I => 1
  | K => 2
  | S => 3
  | B => 3
  | C => 3
  | W => 2
  | successor => 3
  | numeral _ => 2
  | toNumeral => 1
  | lambdaMark => 1
  | user u => u.arity

/-- The remark attached to a combinator. -/
def note : Native → Literal
  | successor => .string "n -> n + 1, or SB"
  | numeral n => .string (toString n)
  | toNumeral => .string "coerce argument to a numeral"
  | lambdaMark => .string "lambda placeholder"
  | user u => u.note
  | _ => .null

/-- Whether the combinator may replace itself and its first argument while an application of it
is being built. -/
def hooked : Native → Bool
  | successor => true
  | lambdaMark => true
  | user u => u.hooked
  | _ => false

/-- The basic combinators, in the order of their names. -/
def basic : List Native := [successor, B, C, I, K, S, W]

/-- The combinators that need no declaration. -/
def standard : List Native := basic ++ [toNumeral, lambdaMark]

theorem arity_pos (c : Native) : 0 < c.arity := by
  cases c with
  | user u => exact u.arity_pos
  | _ => simp [arity]

end Native

/-- What a named term carries besides its definition. A name of positive arity waits for that many
arguments; a terminal one counts as a single opaque symbol. The marks of a name may be any literals
that stand for yes or no. -/
structure NameInfo where
  ident : Nat
  name : String
  arity : Amount
  proper : Literal
  terminal : Literal
  note : Literal
deriving DecidableEq, Repr

namespace NameInfo

/-- Whether the name counts as a single symbol. -/
def isTerminal (info : NameInfo) : Bool := info.terminal.isTrue

/-- Whether the name gives way to its definition without any arguments. -/
def isOpen (info : NameInfo) : Bool := info.arity.isZero

end NameInfo

/-- Terms, and the literals that stand for terms. `node` is the identity of an application. -/
inductive Term where
  | var (v : Variable)
  | native (c : Native)
  /-- A literal in the place of a term. -/
  | foreign (x : Foreign)
  | named (info : NameInfo) (definition : Term)
  | lam (binder : Variable) (body : Term)
  | app (node : Nat) (head : Term) (args : List Term)
deriving Repr

namespace Term

instance : Inhabited Term := ⟨native .I⟩

/-- The literal of a number. -/
abbrev numeral (n : Nat) : Term := native (.numeral n)

/-- The literal that stands in the place of a term. -/
def literal? : Term → Option Literal
  | foreign x => some x.literal
  | _ => none

/-- Whether a term is the empty literal. -/
def isNull (t : Term) : Bool := t.literal? matches some .null

/-- The first of some arguments that is a literal. -/
def firstLiteral (args : List Term) : Option Literal := args.findSome? literal?

/-- The parts of a list that stands in the place of a term. -/
def items? : Term → Option (List Term)
  | foreign ⟨i, .list xs⟩ => some (xs.map fun x => foreign ⟨i, x⟩)
  | _ => none

/-- The word for the variant of a term. -/
def kind : Term → String
  | var _ => "Variable"
  | native (.numeral _) => "Church"
  | native _ => "Native"
  | foreign x => x.literal.typeName
  | named _ _ => "Alias"
  | lam _ _ => "Lambda"
  | app _ _ _ => "Application"

mutual

/-- The number of nodes, definitions of names included. -/
def size : Term → Nat
  | var _ => 1
  | native _ => 1
  | foreign _ => 1
  | named _ d => size d + 1
  | lam _ b => size b + 1
  | app _ h as => size h + sizeAll as

/-- The number of nodes of a list of terms, and one for the list. -/
def sizeAll : List Term → Nat
  | [] => 1
  | a :: as => size a + sizeAll as

end

theorem size_pos (t : Term) : 0 < t.size := by
  cases t with
  | app n h as =>
    have := size_pos h
    simp only [size]
    omega
  | _ => simp [size]

theorem sizeAll_pos (ts : List Term) : 0 < sizeAll ts := by
  induction ts with
  | nil => simp [sizeAll]
  | cons t ts ih =>
    simp only [sizeAll]
    omega

mutual

/-- The depth of the tree; a name is a leaf, whatever it stands for. -/
def depth : Term → Nat
  | var _ => 1
  | native _ => 1
  | foreign _ => 1
  | named _ _ => 1
  | lam _ b => depth b + 1
  | app _ h as => max (depth h) (depthAll as) + 1

/-- The depth of the deepest term of a list. -/
def depthAll : List Term → Nat
  | [] => 0
  | a :: as => max (depth a) (depthAll as)

end

mutual

/-- How deep lambdas nest, definitions of names included. -/
def lambdaDepth : Term → Nat
  | var _ => 0
  | native _ => 0
  | foreign _ => 0
  | named _ d => lambdaDepth d
  | lam _ b => lambdaDepth b + 1
  | app _ h as => max (lambdaDepth h) (lambdaDepthOfAll as)

/-- How deep lambdas nest in a list of terms. -/
def lambdaDepthOfAll : List Term → Nat
  | [] => 0
  | a :: as => max (lambdaDepth a) (lambdaDepthOfAll as)

end

mutual

/-- How often a term can be taken apart, at most, by splitting applications and opening lambdas. -/
def halvings : Term → Nat
  | var _ => 1
  | native _ => 1
  | foreign _ => 1
  | named _ _ => 1
  | lam _ b => halvings b + 1
  | app _ h as => max (halvings h) (halvingsOfAll as) + as.length + 1

/-- How often the terms of a list can be taken apart, at most. -/
def halvingsOfAll : List Term → Nat
  | [] => 0
  | a :: as => max (halvings a) (halvingsOfAll as)

end

mutual

/-- How many names could be opened, one after another, without firing any rule. Opening a name
lowers it, since a name counts one more than its definition. -/
def pending : Term → Nat
  | var _ => 0
  | native _ => 0
  | foreign _ => 0
  | named _ d => pending d + 1
  | lam _ b => pending b
  | app _ h as => pending h + pendingAll as

/-- The names that could be opened in a list of terms. -/
def pendingAll : List Term → Nat
  | [] => 0
  | a :: as => pending a + pendingAll as

end

theorem pendingAll_append (as bs : List Term) :
    pendingAll (as ++ bs) = pendingAll as + pendingAll bs := by
  induction as with
  | nil => simp [pendingAll]
  | cons a as ih => simp [pendingAll, ih, Nat.add_assoc]

mutual

/-- Whether `v` occurs free, definitions of names included and lambdas that bind `v` left out. -/
def occurs (v : Variable) : Term → Bool
  | var w => w = v
  | native _ => false
  | foreign _ => false
  | named _ d => occurs v d
  | lam w b => w ≠ v && occurs v b
  | app _ h as => occurs v h || occursAny v as

/-- Whether `v` occurs free in one of the terms. -/
def occursAny (v : Variable) : List Term → Bool
  | [] => false
  | a :: as => occurs v a || occursAny v as

end

mutual

/-- Whether no user combinator with a hook occurs, definitions of names included. -/
def hookless : Term → Bool
  | var _ => true
  | native (.user u) => !u.hooked
  | native _ => true
  | foreign _ => true
  | named _ d => hookless d
  | lam _ b => hookless b
  | app _ h as => hookless h && hooklessAll as

/-- Whether no user combinator with a hook occurs in one of the terms. -/
def hooklessAll : List Term → Bool
  | [] => true
  | a :: as => hookless a && hooklessAll as

end

theorem hooklessAll_append (as bs : List Term) :
    hooklessAll (as ++ bs) = (hooklessAll as && hooklessAll bs) := by
  induction as with
  | nil => simp [hooklessAll]
  | cons a as ih => simp [hooklessAll, ih, Bool.and_assoc]

/-- Whether feeding one more argument could make the term do something. Only a term headed by a
variable is done. -/
def awaitsArgs : Term → Bool
  | var _ => false
  | app _ h _ => awaitsArgs h
  | named _ d => awaitsArgs d
  | native _ => true
  | foreign _ => true
  | lam _ _ => true

end Term

end Combinatory
