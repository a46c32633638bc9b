import Combinatory.Symbols

/-!
# Outlines

The outline of a term shows its exact structure: one pair of parentheses for every application, one
pair of braces for every lambda, `%5` for a numeral, and a label for every other leaf. Two objects
of one name get different labels, in the order of their declaration. A text in the place of a term
stands for itself; other literals have no label, and no term with one in it has an outline.
-/

namespace Combinatory

/-- Labels for the declared variables, combinators and names. The list holds each object with its
sign and name, the latest first. -/
structure Labels where
  declared : List (Symbol × String)

namespace Labels

/-- The sign that tells the kinds of symbols apart. -/
def sign : Symbol → String
  | .var _ => "$"
  | .native _ => ""
  | .foreign _ => ""
  | .named _ => "@"

/-- The displayed name of a symbol. -/
def nameOf : Symbol → String
  | .var v => v.name
  | .native c => c.name
  | .foreign x => x.literal.text
  | .named info => info.name

/-- Whether two symbols are the same object. -/
def same : Symbol → Symbol → Bool
  | .var v, .var w => v = w
  | .native c, .native d => c = d
  | .foreign x, .foreign y => x.isSame y
  | .named i, .named j => i.ident = j.ident
  | _, _ => false

/-- The first object of a name is shown plain, the second with `#2`, and so on. -/
def declare (l : Labels) (x : Symbol) : Labels :=
  if l.declared.any (same x ·.1) then l
  else
    let base := sign x ++ nameOf x
    let earlier := l.declared.countP fun p => sign p.1 ++ nameOf p.1 = base
    ⟨(x, if earlier = 0 then base else base ++ "#" ++ toString (earlier + 1)) :: l.declared⟩

/-- The label of an object; one that was never declared is shown with a question mark. -/
def label (l : Labels) (x : Symbol) : String :=
  match l.declared.find? (same x ·.1) with
  | some (_, s) => s
  | none => "?" ++ nameOf x

/-- The labels of the combinators that need no declaration. -/
def standard : Labels := Native.standard.foldl (fun l c => l.declare (.native c)) ⟨[]⟩

end Labels

namespace Literal

/-- Why a literal has no label. -/
def unlabelled (l : Literal) : Failure :=
  if l.isCountable then .notCapable l.typeName "name" else .notCountable l.typeName

end Literal

namespace Term

/-- How many binders lie between an occurrence of a variable and its own binder. -/
def binderIndex (v : Variable) : List Variable → Option Nat
  | [] => none
  | w :: ws => if w = v then some 0 else (binderIndex v ws).map (· + 1)

mutual

/-- The pieces of the outline of a term under binders, put in front of `rest`. -/
def outlineUnder (l : Labels) (binders : List Variable) (t : Term) (rest : List String) :
    List String :=
  match t with
  | var v =>
    match binderIndex v binders with
    | some i => v.name :: "^" :: toString i :: rest
    | none => l.label (.var v) :: rest
  | native (.numeral n) => "%" :: toString n :: rest
  | native c => l.label (.native c) :: rest
  | foreign x => x.literal.text :: rest
  | named info _ => l.label (.named info) :: rest
  | lam v b => "\x7b" :: v.name :: ": " :: outlineUnder l (v :: binders) b ("\x7d" :: rest)
  | app _ h as => "(" :: outlineUnder l binders h (outlineOfArgs l binders as (")" :: rest))

/-- The pieces of the outlines of arguments, a space before each. -/
def outlineOfArgs (l : Labels) (binders : List Variable) (ts : List Term) (rest : List String) :
    List String :=
  match ts with
  | [] => rest
  | t :: ts => " " :: outlineUnder l binders t (outlineOfArgs l binders ts rest)

end

/-- The outline of a term, or the failure to label the first literal that has no label. -/
def outline (l : Labels) (t : Term) : Except Failure String :=
  match t.strayThat? fun x => !x.isText with
  | some x => .error x.unlabelled
  | none => .ok (String.join (outlineUnder l [] t []))

end Term

namespace Symbol

/-- The outline of a symbol on its own, or the failure to label it. -/
def outline (l : Labels) : Symbol → Except Failure String
  | native (.numeral n) => .ok ("%" ++ toString n)
  | foreign x => if x.literal.isText then .ok x.literal.text else .error x.literal.unlabelled
  | x => .ok (l.label x)

/-- The outlines of some symbols. Of several that have none, the last one is reported. -/
def outlines (l : Labels) (xs : List Symbol) : Except Failure (List String) :=
  List.reverse <$> xs.reverse.mapM (outline l)

/-- Whether a text comes before another, or is the same, character by character. -/
def precedes : List Char → List Char → Bool
  | [], _ => true
  | _ :: _, [] => false
  | a :: as, b :: bs => a.toNat < b.toNat || (a = b && precedes as bs)

/-- Outlines in the order of their characters. -/
def sorted (outlines : List String) : List String :=
  outlines.mergeSort fun a b => precedes a.toList b.toList

/-- Outlines in order, those of one look together, with their number. -/
def tally (outlines : List String) : List (String × Nat) :=
  ((sorted outlines).splitBy (· = ·)).filterMap fun group =>
    group.head?.map fun s => (s, group.length)

end Symbol

end Combinatory
