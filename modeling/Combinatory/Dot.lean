import Combinatory.Rendering

/-!
# Trees as DOT text

A term is drawn as a tree: a box for every node, numbered from one in the order in which they are
reached, and an edge to every part. A quote inside a label is escaped by a backslash.
-/

namespace Combinatory.Dot

/-- A label with its quotes escaped. -/
def escaped (s : String) : String :=
  String.ofList (s.toList.flatMap fun c => if c = '"' then ['\\', '"'] else [c])

/-- The name of a node. -/
def ident (n : Nat) : String := "n" ++ toString n

/-- The line of a node. -/
def nodeLine (n : Nat) (attributes : String) : String :=
  "  " ++ ident n ++ " [" ++ attributes ++ "];\n"

/-- The line of an edge. -/
def edgeLine (parent child : Nat) : String :=
  "  " ++ ident parent ++ " -> " ++ ident child ++ ";\n"

/-- The attributes of a filled box. -/
def filled (label color : String) : String :=
  "label=\"" ++ escaped label ++ "\", fillcolor=" ++ color ++ ", style=filled"

mutual

/-- The lines of a term whose node has number `n`, and the next free number. -/
def lines (n : Nat) : Term → List String × Nat
  | .app _ h as =>
    let (ls, k) := lines (n + 1) h
    let (rest, k) := linesOfParts n k as
    (nodeLine n "label=\"@\"" :: ls ++ edgeLine n (n + 1) :: rest, k)
  | .lam v b =>
    let (ls, k) := lines (n + 1) b
    (nodeLine n (filled (v.name ++ "->") "lightblue") :: ls ++ [edgeLine n (n + 1)], k)
  | .var v => ([nodeLine n (filled v.name "lightgray")], n + 1)
  | .native c => ([nodeLine n (filled c.name "white")], n + 1)
  | .foreign x => ([nodeLine n (filled x.literal.text "white")], n + 1)
  | .named info _ => ([nodeLine n (filled info.name "white")], n + 1)

/-- The lines of the parts of node `n`, the first part numbered `k`, each followed by its edge. -/
def linesOfParts (n k : Nat) : List Term → List String × Nat
  | [] => ([], k)
  | t :: ts =>
    let (ls, next) := lines k t
    let (rest, last) := linesOfParts n next ts
    (ls ++ edgeLine n k :: rest, last)

end

/-- The whole text of a drawing. -/
def text (t : Term) : String :=
  String.join (["digraph term \x7b\n", "  node [shape=box, style=rounded];\n"] ++ (lines 1 t).1
    ++ ["\x7d\n"])

end Combinatory.Dot
