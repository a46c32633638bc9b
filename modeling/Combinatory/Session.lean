import Combinatory.Equality
import Combinatory.Expression
import Combinatory.Numeral
import Combinatory.Outline

/-!
# Sessions

A session keeps the declared names, what user combinators do, the settings and the store of the
engine. The rule and the hook of a user combinator are expressions, built when they fire, so the
names in them are looked up at that time.
-/

namespace Combinatory

/-- The settings shared by all operations of a session. -/
structure Settings where
  /-- Whether terms are rendered tersely; any literal that stands for yes or no will do. -/
  terse : Literal := .bool true
  maxSteps : Amount := .number 1000
  maxArgs : Amount := .number 32
deriving Repr

namespace Settings

/-- Whether terms are rendered tersely. -/
def isTerse (s : Settings) : Bool := s.terse.isTrue

/-- The limits given by a caller, with the settings where none are given. -/
def budget (s : Settings) (steps args : Option Amount) : Budget :=
  ⟨steps.getD s.maxSteps, args.getD s.maxArgs⟩

end Settings

/-- The kinds of terms that a hook can ask for. -/
inductive TermKind where
  | any
  | numeral
  | var
  | app
  | lam
  | native
deriving DecidableEq, Repr

namespace TermKind

/-- Whether a term is of a kind. A numeral is a combinator too. -/
def admits : TermKind → Term → Bool
  | any, _ => true
  | numeral, .native (.numeral _) => true
  | var, .var _ => true
  | app, .app _ _ _ => true
  | lam, .lam _ _ => true
  | native, .native _ => true
  | _, _ => false

end TermKind

/-- The hook of a user combinator: what it puts in place of itself and a first argument. -/
structure Hook where
  kind : TermKind
  param : String
  body : Expr

/-- What a user combinator does. -/
structure Behaviour where
  params : List String
  body : Expr
  hook : Option Hook

/-- The declarations that rules and hooks can see. -/
structure Declarations where
  names : List (String × Term) := []
  behaviours : List (Nat × Behaviour) := []

namespace Declarations

/-- How deep rules, hooks and evaluations may set each other off. -/
def maxDepth : Nat := 1000

/-- Whether no user combinator has a hook. -/
def hookless (d : Declarations) : Bool := d.behaviours.all (·.2.hook.isNone)

/-- The result of a user combinator on its arguments. -/
def contract (d : Declarations) (R : Rules) (u : UserNative) (args : List Term) : Engine Term :=
  match d.behaviours.lookup u.ident with
  | none => throw .tooDeep
  | some b => b.body.build R d.names (b.params.zip args).reverse

/-- The rules given by the declarations, up to a depth. -/
def rules (d : Declarations) : Nat → Rules
  | 0 =>
    { replacement := fun _ _ => if d.hookless then pure none else throw .tooDeep
      contract := fun _ _ => throw .tooDeep
      evaluate := fun _ => throw .tooDeep
      hookless := d.hookless
      replacement_none := fun h _ _ => by simp only [h, ite_true] }
  | depth + 1 =>
    { replacement := fun u a =>
        if d.hookless then pure none
        else
          match (d.behaviours.lookup u.ident).bind (·.hook) with
          | none => pure none
          | some hook =>
            if hook.kind.admits a then do
              let t ← hook.body.build (d.rules depth) d.names [(hook.param, a)]
              return if t.literal?.isNone then some t else none
            else pure none
      contract := fun u args => d.contract (d.rules depth) u args
      evaluate := fun t => do return .numeral (← t.toNumber (d.rules depth) none)
      hookless := d.hookless
      replacement_none := fun h _ _ => by simp only [h, ite_true] }

end Declarations

/-- The state of a session. -/
structure Session where
  declarations : Declarations := {}
  settings : Settings := {}
  store : Store := {}
  labels : Labels := Labels.standard
  /-- The canonical forms found when names were declared. -/
  canonicals : List (Nat × Term) := []

/-- An operation of a session, which may fail. What it has changed before it fails stays changed. -/
abbrev SessionM := EStateM Failure Session

namespace Session

/-- An operation of the engine under the rules and settings of the session. -/
def perform {α : Type} (x : Rules → Settings → Engine α) : SessionM α := fun s =>
  let rules := s.declarations.rules Declarations.maxDepth
  let store := s.store
  let s := { s with store := {} }
  match x rules s.settings store with
  | .ok a store => .ok a { s with store }
  | .error e store => .error e { s with store }

/-- The term that an expression describes. -/
def term (e : Expr) : SessionM Term := fun s =>
  let names := s.declarations.names
  perform (fun R _ => e.build R names []) s

/-- A literal as a new object. -/
def newForeign (l : Literal) : SessionM Foreign := do
  return ⟨← perform fun _ _ => Engine.freshNode, l⟩

/-- Keeps a term under a key. A key that is no text keeps it out of reach, and a literal is not kept
at all. -/
def bind (key : Literal) (t : Term) : SessionM Unit :=
  match t.literal?, key with
  | some _, _ => pure ()
  | none, .string n => modify fun s =>
    { s with declarations := { s.declarations with names := (n, t) :: s.declarations.names } }
  | none, key => if key.isCountable then pure () else throw (.notCountable key.typeName)

/-- The key of a declared object: its name, unless another key is given. -/
def keyOf (name : String) (given : Option Literal) : Literal := given.getD (.string name)

/-- Gives an object its label. -/
def assignLabel (x : Symbol) : SessionM Unit :=
  modify fun s => { s with labels := s.labels.declare x }

/-- New variables. They are declared under keys, one after another, once all of them exist; those
left without a key stay undeclared. -/
def declareVariables (names keys : List Literal) : SessionM (List Variable) := do
  let vs ← perform fun _ _ => names.mapM newVariable
  for (k, v) in keys.zip vs do
    assignLabel (.var v)
    bind k (.var v)
  return vs

/-- The arity of a combinator: a positive number. -/
def properArity (name : String) : Literal → Except Failure { n : Nat // 0 < n }
  | .int (.ofNat (n + 1)) => .ok ⟨n + 1, Nat.succ_pos n⟩
  | l => .error (.improperArity name l)

/-- A new combinator. Its name is looked at first, then its arity, then its rule. -/
def declareNative (name arity : Literal) (params : List String) (body : Option Expr)
    (hook : Option Hook) (note : Literal) (key : Option Literal) : SessionM Term := do
  let name ← MonadExcept.ofExcept (properName name)
  let ⟨arity, arity_pos⟩ ← MonadExcept.ofExcept (properArity name arity)
  match body with
  | none => throw (.missingRule name)
  | some body =>
    let ident ← perform fun _ _ => Engine.freshNode
    let c : Native := .user ⟨ident, name, arity, note, hook.isSome, arity_pos⟩
    modify fun s =>
      { s with declarations := { s.declarations with
          behaviours := (ident, ⟨params, body, hook⟩) :: s.declarations.behaviours } }
    assignLabel (.native c)
    bind (keyOf name key) (.native c)
    return .native c

/-- Takes a new name into the session. -/
def adopt (n : Naming) (key : Option Literal) : SessionM Term := do
  match n.canonical with
  | some c => modify fun s => { s with canonicals := (n.info.ident, c) :: s.canonicals }
  | none => pure ()
  assignLabel (.named n.info)
  bind (keyOf n.info.name key) n.term
  return n.term

/-- A name for a term, with what a search for its canonical form tells. -/
def nameTerm (name : Literal) (definition : Term) (terminal : Option Literal) (canonize : Bool)
    (steps args : Option Amount) (note : Literal) (key : Option Literal) : SessionM Term := do
  match definition.literal? with
  | some l => throw (.nameOfNonTerm name l)
  | none =>
    let n ← perform fun R s =>
      Naming.ofTerm R (s.budget steps args) name definition terminal canonize note
    adopt n key

/-- A name for a term, just as the caller describes it. -/
def nameTermAs (name : Literal) (definition : Term) (arity : Amount)
    (proper terminal : Literal) (key : Option Literal) : SessionM Term := do
  let n ← perform fun _ _ => Naming.new name definition arity proper terminal none .null
  adopt n key

/-- The canonical form found when a name was declared. -/
def canonicalOf (s : Session) (info : NameInfo) : Option Term := s.canonicals.lookup info.ident

/-- Runs a term on arguments. -/
def runOn (head : Term) (args : List Term) (steps : Option Amount) (strict : Bool) :
    SessionM Run :=
  perform fun R s => head.run R (steps.getD s.maxSteps) args strict

/-- The number that a term stands for. -/
def toNumber (t : Term) (steps : Option Amount) : SessionM Nat :=
  perform fun R _ => t.toNumber R steps

/-- A term with another in place of a variable, or `none` if nothing was replaced. What is not a
variable occurs nowhere. -/
def substitute (t var value : Term) : SessionM (Option Term) :=
  match var with
  | .var v => perform fun R _ => t.subst R v value
  | _ => pure none

/-- Fails unless a term equals the expected term. -/
def expect (actual expected : Term) : SessionM Unit :=
  match expected.literal? with
  | some l => throw (.expectedTerm l)
  | none => perform fun R _ => do
    if ← actual.equal R expected then return () else throw (.mismatch actual expected)

/-- The identities that are dealt out, counted from a first one: to the variables of some names, to
the binder of an abstraction over the first of them, and then. -/
structure Deal where
  idents : List Amount
  binder : Amount
  next : Amount

/-- Deals out identities from a first one on, which may be any number. -/
def deal (start : Amount) (names : List Literal) : SessionM Deal := fun s =>
  let R := s.declarations.rules Declarations.maxDepth
  let work : Engine (List Int × Int) := do
    let vs ← names.mapM newVariable
    match vs with
    | [] => throw (.indexOutOfRange "list")
    | v :: _ => return (vs.map (·.ident), (← Term.close R v (.var v)).1.ident)
  let dealt : Except Failure Deal := do
    if (start.countFrom? 0).isNone then throw .notCounting
    match work { nextVariable := 0 } with
    | .error e _ => throw e
    | .ok (idents, binder) store =>
      let counted := ((start.countFrom? (store.nextVariable.toNat + 1)).getD []).toArray
      let nth (i : Int) : Option Amount := counted[i.toNat]?
      match idents.mapM nth, nth binder, nth store.nextVariable with
      | some idents, some binder, some next => return ⟨idents, binder, next⟩
      | _, _, _ => throw .notCounting
  match dealt with
  | .error e => .error e s
  | .ok d => .ok d s

/-- Changes one setting; `null` leaves it as it is. -/
def configure (key : String) (value : Literal) : SessionM Unit := do
  let change (f : Settings → Settings) : SessionM Unit :=
    modify fun s => { s with settings := f s.settings }
  match key, value with
  | "terse", .null => pure ()
  | "terse", l => change ({ · with terse := l })
  | "max_steps", l =>
    match Amount.ofLiteral? l with
    | some n => change ({ · with maxSteps := n })
    | none => pure ()
  | "max_args", l =>
    match Amount.ofLiteral? l with
    | some n => change ({ · with maxArgs := n })
    | none => pure ()
  | key, _ => throw (.unknownOption key)

end Session

end Combinatory
