import Combinatory.Demo
import Combinatory.Text.Integer

/-!
# Command line options

Options begin with two dashes and may be shortened as long as they stay unique. A value follows its
option, or is joined to it by `=`. The one short option may be repeated in one argument. A negative
number and a text with a space are values even though they begin with a dash, and after a lone `--`
all arguments are values. Two dashes joined to an option are left out, and nothing remains as its
value: an empty list.
-/

namespace Combinatory

/-- What the command line asks for. -/
structure Options where
  demo : Option Demo := some .reduce
  steps : Option Amount := none
  maxArgs : Option Amount := none
  dot : Option String := none
  quiet : Bool := false
  verboseTerms : Bool := false

namespace Options

/-- The options there are. -/
inductive Switch where
  | help
  | demo
  | steps
  | maxArgs
  | dot
  | quiet
  | verboseTerms
deriving DecidableEq, Repr

/-- The spellings of the options. -/
def spellings : List (String × Switch) :=
  [("-h", .help), ("--help", .help), ("--demo", .demo), ("--steps", .steps),
    ("--max-args", .maxArgs), ("--dot", .dot), ("--quiet", .quiet),
    ("--verbose-terms", .verboseTerms)]

/-- How a command line stops before anything is run. -/
inductive Stop where
  | help
  | badUsage
deriving DecidableEq, Repr

/-- What one argument of the command line is. -/
inductive Piece where
  | value (s : String)
  | separator
  | switch (o : Switch) (joined : Option String)
  | unknown
deriving Repr

/-- Whether a text is a negative number. One line break may end it. -/
def isNegativeNumber (s : String) : Bool :=
  match Rendering.dropFinalBreak s.toList with
  | '-' :: cs =>
    let isDigit (c : Char) : Bool := (Text.digit? c).isSome
    let rest := cs.dropWhile isDigit
    (rest.isEmpty && !cs.isEmpty)
      || (match rest with
        | '.' :: fraction => !fraction.isEmpty && fraction.all isDigit
        | _ => false)
  | _ => false

/-- The text before the first `=`, and the text after it, if there is one. -/
def splitJoined (s : String) : String × Option String :=
  let cs := s.toList
  match cs.dropWhile (· ≠ '=') with
  | _ :: after => (String.ofList (cs.takeWhile (· ≠ '=')), some (String.ofList after))
  | [] => (s, none)

/-- What is left of the text joined to an option. The letters joined to a short one must be short
options again, and there is only one; repeating it changes nothing. -/
def remaining (spelling : String) (joined : Option String) : Option String :=
  match joined with
  | none => none
  | some s =>
    if spelling = "-h" && !s.isEmpty && s.toList.all (· = 'h') then none else some s

/-- The options that an argument with a dash may stand for, and the text joined to it. -/
def candidates (s : String) : List (Switch × Option String) :=
  if s.startsWith "--" then
    let (front, joined) := splitJoined s
    (spellings.filter fun p => p.1.startsWith front).map fun p => (p.2, joined)
  else
    let front := String.ofList (s.toList.take 2)
    let joined := String.ofList (s.toList.drop 2)
    (spellings.filter fun p => p.1 = front).map fun p => (p.2, remaining front (some joined))

/-- What an argument is, when no separator stands before it. -/
def classify (s : String) : Except Stop Piece :=
  if !s.startsWith "-" then .ok (.value s)
  else
    match spellings.lookup s with
    | some o => .ok (.switch o none)
    | none =>
      if s = "-" then .ok (.value s)
      else
        let (front, joined) := splitJoined s
        match joined.bind fun _ => spellings.lookup front with
        | some o => .ok (.switch o (remaining front joined))
        | none =>
          match candidates s with
          | [(o, joined)] => .ok (.switch o joined)
          | _ :: _ :: _ => .error .badUsage
          | [] =>
            if isNegativeNumber s || s.toList.contains ' ' then .ok (.value s)
            else .ok .unknown

/-- The arguments classified; all after a separator are values. -/
def classifyAll : List String → Except Stop (List Piece)
  | [] => .ok []
  | s :: rest =>
    if s = "--" then .ok (.separator :: rest.map .value)
    else do return (← classify s) :: (← classifyAll rest)

/-- Sets an option to an empty list, which is no demonstration and no path. -/
def clear (o : Options) : Switch → Options
  | .demo => { o with demo := none }
  | .steps => { o with steps := some (.other (.list [])) }
  | .maxArgs => { o with maxArgs := some (.other (.list [])) }
  | .dot => { o with dot := none }
  | _ => o

/-- Sets an option that takes a value. -/
def assign (o : Options) (s : Switch) (value : String) : Except Stop Options :=
  if value = "--" then .ok (o.clear s)
  else
    match s with
    | .demo =>
      match Demo.ofName? value with
      | some d => .ok { o with demo := some d }
      | none => .error .badUsage
    | .steps =>
      match Text.integer? value with
      | some n => .ok { o with steps := some (.number n) }
      | none => .error .badUsage
    | .maxArgs =>
      match Text.integer? value with
      | some n => .ok { o with maxArgs := some (.number n) }
      | none => .error .badUsage
    | .dot => .ok { o with dot := some value }
    | _ => .error .badUsage

/-- Sets an option that takes no value. -/
def raise (o : Options) : Switch → Except Stop Options
  | .help => .error .help
  | .quiet => .ok { o with quiet := true }
  | .verboseTerms => .ok { o with verboseTerms := true }
  | _ => .error .badUsage

/-- Whether an option takes a value. -/
def takesValue : Switch → Bool
  | .demo => true
  | .steps => true
  | .maxArgs => true
  | .dot => true
  | _ => false

/-- Reads the arguments in order; `strays` tells that one of them belonged to no option. -/
def read (o : Options) (strays : Bool) : List Piece → Except Stop Options
  | [] => if strays then .error .badUsage else .ok o
  | .switch s (some v) :: rest =>
    if takesValue s then do read (← o.assign s v) strays rest else .error .badUsage
  | .switch s none :: .value v :: rest =>
    if takesValue s then do read (← o.assign s v) strays rest
    else do read (← o.raise s) true rest
  | .switch s none :: rest =>
    if takesValue s then .error .badUsage else do read (← o.raise s) strays rest
  | _ :: rest => read o true rest

/-- The options given by the arguments of the command line. -/
def parse (args : List String) : Except Stop Options := do read {} false (← classifyAll args)

end Options

/-- What the program is asked to do, and how. -/
def usage : String :=
  "usage: combinatory [-h] [--demo \x7breduce,canonize,bracket,lambdify,numerals\x7d]\n"
    ++ "                   [--steps STEPS] [--max-args MAX_ARGS] [--dot DOT] [--quiet]\n"
    ++ "                   [--verbose-terms]\n\nCombinatory logic term engine\n"

/-- A drawing to be written to a path. -/
structure Drawing where
  path : String
  text : String

/-- What the command line printed, its result, and the drawing that is left to be written. -/
structure CommandOutcome where
  text : String
  result : Demo.Result
  drawing : Option Drawing

namespace Session

/-- The drawing that a result allows. -/
def drawingOf (demo : Demo) : Demo.Result → Option String
  | .term t => if demo = .canonize || demo = .numerals then none else some (Dot.text t)
  | _ => none

/-- Runs what the options ask for. Settings that they change stay changed. -/
def command (o : Options) : SessionM CommandOutcome := do
  modify fun s => { s with settings :=
    { s.settings with
      maxSteps := o.steps.getD s.settings.maxSteps
      maxArgs := o.maxArgs.getD s.settings.maxArgs
      terse := if o.verboseTerms then .bool false else s.settings.terse } }
  match o.demo with
  | none => throw (.notCountable (Literal.list []).typeName)
  | some demo =>
    let out ← perform fun R s => demo.run R s o.quiet
    match o.dot with
    | none => return ⟨out.text, out.result, none⟩
    | some path =>
      if path.isEmpty then return ⟨out.text, out.result, none⟩
      else
        match drawingOf demo out.result with
        | some drawing => return ⟨out.text, out.result, some ⟨path, drawing⟩⟩
        | none =>
          return ⟨out.text ++ "--dot is not supported for the " ++ demo.name ++ " demo\n",
            out.result, none⟩

end Session

end Combinatory
