import Combinatory.Options

/-!
# The command line

Runs a demonstration, prints its text and writes the drawing that was asked for.
-/

namespace Combinatory

/-- Does what the options ask for. -/
def execute (o : Options) : IO UInt32 := do
  match Session.command o {} with
  | .ok out _ =>
    IO.print out.text
    match out.drawing with
    | some drawing =>
      IO.FS.writeFile drawing.path drawing.text
      IO.print (Report.exported drawing.path)
    | none => pure ()
    return 0
  | .error e s =>
    IO.eprintln (e.message s.settings.isTerse)
    return 1

end Combinatory

/-- The program. -/
def main (args : List String) : IO UInt32 := do
  match Combinatory.Options.parse args with
  | .ok o => Combinatory.execute o
  | .error .help =>
    IO.print Combinatory.usage
    return 0
  | .error .badUsage =>
    IO.eprint Combinatory.usage
    return 2
