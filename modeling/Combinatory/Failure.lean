import Combinatory.Amount
import Combinatory.Destination
import Combinatory.Rendering

/-!
# Failures

Every way in which an operation can fail, as a cause that holds the terms and literals involved, and
the message of each. A failure whose message would have to write a literal inside a term is reported
as the failure to write that literal.
-/

namespace Combinatory

/-- Why an operation failed. -/
inductive Failure where
  /-- A name must be a non-empty text. -/
  | improperName (given : Literal)
  | improperArity (name : String) (given : Literal)
  | missingRule (name : String)
  | improperNumeral (given : Literal)
  /-- A numeral has a written form of limited length. -/
  | numeralTooLong
  | noArguments (head : Term)
  | applyToNonTerm (head : Term) (given : Literal)
  | binderNotVariable (given : Term)
  | listedBinderNotVariable (given : Term)
  | repeatedBinder (name : String)
  | noBinders
  | bodyNotTerm (given : Literal)
  | nameOfNonTerm (name : Literal) (given : Literal)
  | lambdaMarkUsed
  /-- The rule of a combinator gave something else than a term. -/
  | ruleGaveNonTerm (name : String) (given : Literal)
  | runOutOfSteps (term : Term) (budget : Amount)
  | canonicalNotFound (given : Term) (maxArgs maxSteps : Amount)
  | noCanonicalForm (given : Term)
  | numeralOutOfSteps (term : Term) (budget : Amount)
  | notANumeral (given : Term)
  | mismatch (actual : Term) (expected : Term)
  | expectedTerm (given : Literal)
  | notRenderable (typeName : String)
  /-- Something is asked of a literal that only terms can do. -/
  | notCapable (typeName operation : String)
  | notCountable (typeName : String)
  /-- What is compared must be numbers. -/
  | notComparable (relation left right : String)
  /-- Nothing can be taken from what is no number. -/
  | notSubtractable (typeName : String)
  /-- A number of arguments, or of repetitions, must be whole. -/
  | notWhole (typeName : String)
  /-- A list is repeated a whole number of times. -/
  | notRepeatable (typeName : String)
  /-- Counting starts at a number. -/
  | notCounting
  /-- There are two halves, neither fewer nor more. -/
  | improperHalves (given : Nat)
  /-- A number of items must be a natural number, and fit into 64 bits. -/
  | improperLimit (isIndex : Bool)
  /-- No file can be written or read at a path. -/
  | unusablePath (path : String) (fault : PathFault)
  | unknownOption (key : String)
  | unknownName (name : String)
  | indexOutOfRange (sequence : String)
  /-- A position in a text must be whole. -/
  | improperPosition (typeName : String)
  /-- A place in a list must be whole. -/
  | improperPlace (typeName : String)
  /-- An index must fit into 64 bits. -/
  | indexTooLarge
  /-- Declarations nest too deeply, or expand each other without end. -/
  | tooDeep
deriving Repr

namespace Failure

instance : Inhabited Failure := ⟨tooDeep⟩

/-- The terms that the message of a failure writes, in order. -/
def terms : Failure → List Term
  | noArguments t => [t]
  | applyToNonTerm t _ => [t]
  | binderNotVariable t => [t]
  | listedBinderNotVariable t => [t]
  | runOutOfSteps t _ => [t]
  | canonicalNotFound t _ _ => [t]
  | noCanonicalForm t => [t]
  | numeralOutOfSteps t _ => [t]
  | notANumeral t => [t]
  | mismatch a e => [a, e]
  | _ => []

/-- The failure that is reported: the cause itself, if its terms can be written. -/
def reported (e : Failure) : Failure :=
  match e.terms.findSome? Term.obstacle? with
  | some l => notRenderable l.typeName
  | none => e

/-- Whether the failure reports a spent budget. -/
def isBudget (e : Failure) : Bool :=
  match e.reported with
  | runOutOfSteps _ _ => true
  | canonicalNotFound _ _ _ => true
  | noCanonicalForm _ => true
  | numeralOutOfSteps _ _ => true
  | _ => false

/-- The wording of a cause, with terms rendered as asked. -/
def wording (terse : Bool) : Failure → String
  | improperName l => "improper term name: " ++ l.shown
  | improperArity n l => "native " ++ n ++ " needs a positive integer arity, got " ++ l.shown
  | missingRule n => "native " ++ n ++ " has no callable rule"
  | improperNumeral l => "Church numeral must be a non-negative integer, got " ++ l.shown
  | numeralTooLong =>
    "Exceeds the limit (4300 digits) for integer string conversion; "
      ++ "use sys.set_int_max_str_digits() to increase the limit"
  | noArguments t => "application of " ++ t.render terse ++ " to no arguments"
  | applyToNonTerm t l => "cannot apply " ++ t.render terse ++ " to non-term " ++ l.shown
  | binderNotVariable t => "lambda must bind a Variable, got " ++ t.shown
  | listedBinderNotVariable t => "lambda must bind Variables, got " ++ t.shown
  | repeatedBinder n => "duplicate bound name " ++ n ++ " in lambda"
  | noBinders => "empty argument list in lambda"
  | bodyNotTerm l => "lambda body must be a term, got " ++ l.shown
  | nameOfNonTerm n l => "alias " ++ n.text ++ " must name a term, got " ++ l.shown
  | lambdaMarkUsed => "attempt to use the lambda placeholder in a term"
  | ruleGaveNonTerm n l => "native combinator " ++ n ++ " reduced to a non-term: " ++ l.shown
  | runOutOfSteps t n => "failed to compute " ++ t.render terse ++ " in " ++ n.text ++ " steps"
  | canonicalNotFound t m n =>
    "failed to canonicalize " ++ t.render terse ++ " within " ++ m.text ++ " arguments of "
      ++ n.text ++ " steps each"
  | noCanonicalForm t => "failed to canonicalize " ++ t.render terse
  | numeralOutOfSteps t n =>
    "Church numeral coercion of " ++ t.render terse ++ " did not terminate in " ++ n.text
      ++ " steps"
  | notANumeral t => "Church numeral coercion: not a number: " ++ t.render terse
  | mismatch a e => "Found term " ++ a.render terse ++ " but expected " ++ e.render terse
  | expectedTerm l => "expected a term, got " ++ l.shown
  | notRenderable n => "cannot render " ++ n
  | notCapable n o => "'" ++ n ++ "' object has no attribute '" ++ o ++ "'"
  | notCountable n => "unhashable type: '" ++ n ++ "'"
  | notComparable r a b =>
    "'" ++ r ++ "' not supported between instances of '" ++ a ++ "' and '" ++ b ++ "'"
  | notSubtractable n => "unsupported operand type(s) for -: '" ++ n ++ "' and 'int'"
  | notWhole n => "'" ++ n ++ "' object cannot be interpreted as an integer"
  | notRepeatable n => "can't multiply sequence by non-int of type '" ++ n ++ "'"
  | notCounting => "a number is required"
  | improperHalves n =>
    if n < 2 then "not enough values to unpack (expected 2, got " ++ toString n ++ ")"
    else "too many values to unpack (expected 2)"
  | improperLimit isIndex =>
    (if isIndex then "Indices" else "Stop argument")
      ++ " for islice() must be None or an integer: 0 <= x <= sys.maxsize."
  | unusablePath p f => f.message p
  | unknownOption k => "unknown option: " ++ k
  | unknownName n => n
  | indexOutOfRange s => s ++ " index out of range"
  | improperPosition n => "string indices must be integers, not '" ++ n ++ "'"
  | improperPlace n => "list indices must be integers or slices, not " ++ n
  | indexTooLarge => "cannot fit 'int' into an index-sized integer"
  | tooDeep => "declarations nest too deeply"

/-- The message of a failure, with terms rendered as asked. -/
def message (terse : Bool) (e : Failure) : String := e.reported.wording terse

end Failure

namespace Term

/-- The text of a term, or the failure to write it. -/
def written (terse : Bool) (t : Term) : Except Failure String :=
  match t.obstacle? with
  | some l => .error (.notRenderable l.typeName)
  | none => .ok (t.render terse)

/-- The term itself, for an operation that no literal has. -/
def capable (operation : String) (t : Term) : Except Failure Term :=
  match t.literal? with
  | some l => .error (.notCapable l.typeName operation)
  | none => .ok t

end Term

end Combinatory
