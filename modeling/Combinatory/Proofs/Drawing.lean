import Combinatory.Proofs.Drawing.Tokens
import Mathlib.Data.List.Nodup

/-!
# What a drawing shows

A drawing is a list of statements: one for every box, with its attributes, and one for every edge.
Read as a graph it shows an ordered tree, whose branches are the edges of a box in the order in
which they were written. The statements of a term show its tree and no other one, although those of
a part stand in front of the edge that leads to it (`pictures_statements`): the boxes are numbered
in preorder, so that the numbers of a part are a range that nothing else speaks of. The text of a
drawing can be read as its statements, and as nothing else, exactly if no name at a leaf ends with
a backslash (`written_text_iff`).
-/

namespace Combinatory.Dot

/-! ### Statements -/

/-- A box with its attributes, or an edge. -/
inductive Statement where
  | node (id : String) (attributes : List (String × String))
  | edge (parent child : String)
deriving DecidableEq, Repr

/-- The symbols of attributes, up to the bracket that closes them. -/
def attributeTokens : List (String × String) → List Token
  | [] => [.mark ']']
  | [(key, value)] => [.id key, .mark '=', .id value, .mark ']']
  | (key, value) :: as => .id key :: .mark '=' :: .id value :: .mark ',' :: attributeTokens as

/-- The symbols of a statement. -/
def Statement.tokens : Statement → List Token
  | node id as => .id id :: .mark '[' :: attributeTokens as ++ [.mark ';']
  | edge p c => [.id p, .arrow, .id c, .mark ';']

/-- The symbols in front of the statements: the kind and the name of the graph, and how all boxes
look. -/
def preamble : List Token :=
  [.id "digraph", .id "term", .mark '\x7b', .id "node", .mark '['] ++
    attributeTokens [("shape", "box"), ("style", "rounded")] ++ [.mark ';']

/-- The symbols of a graph with some statements. -/
def graphTokens (g : List Statement) : List Token :=
  preamble ++ g.flatMap Statement.tokens ++ [.mark '\x7d']

/-- Whether a text can be read as a graph with some statements. -/
def Written (s : String) (g : List Statement) : Prop := tokens? s = some (graphTokens g)

section Unique

variable {as bs : List (String × String)} {st st' : Statement} {ts us : List Token}

/-- Attributes can be read off their symbols. -/
theorem attributeTokens_append_inj (h : attributeTokens as ++ ts = attributeTokens bs ++ us) :
    as = bs ∧ ts = us := by
  induction as using attributeTokens.induct generalizing bs with
  | case1 =>
    match bs with
    | [] => exact ⟨rfl, by simpa [attributeTokens] using h⟩
    | [_] => simp [attributeTokens] at h
    | _ :: _ :: _ => simp [attributeTokens] at h
  | case2 key value =>
    match bs with
    | [] => simp [attributeTokens] at h
    | [(_, _)] => simpa [attributeTokens, and_assoc] using h
    | (_, _) :: _ :: _ => simp [attributeTokens] at h
  | case3 key value as hne ih =>
    match bs with
    | [] =>
      rw [attributeTokens.eq_3 _ _ _ hne] at h
      simp [attributeTokens] at h
    | [(_, _)] =>
      rw [attributeTokens.eq_3 _ _ _ hne] at h
      simp [attributeTokens] at h
    | (_, _) :: b :: bs =>
      rw [attributeTokens.eq_3 _ _ _ hne] at h
      simp only [attributeTokens, List.cons_append, List.cons.injEq, Token.id.injEq, true_and] at h
      obtain ⟨rfl, rfl, h⟩ := h
      obtain ⟨rfl, rfl⟩ := ih h
      exact ⟨rfl, rfl⟩

/-- A statement can be read off its symbols. -/
theorem tokens_append_inj (h : st.tokens ++ ts = st'.tokens ++ us) : st = st' ∧ ts = us := by
  cases st with
  | node id as =>
    cases st' with
    | node id' bs =>
      simp only [Statement.tokens, List.cons_append, List.append_assoc, List.cons.injEq,
        Token.id.injEq, true_and] at h
      obtain ⟨rfl, h⟩ := h
      obtain ⟨rfl, h⟩ := attributeTokens_append_inj h
      exact ⟨rfl, by simpa using h⟩
    | edge p c => simp [Statement.tokens] at h
  | edge p c =>
    cases st' with
    | node id' bs => simp [Statement.tokens] at h
    | edge p' c' => simpa [Statement.tokens, and_assoc] using h

/-- The statements of a graph can be read off its symbols. -/
theorem graphTokens_injective : Function.Injective graphTokens := by
  intro g g' h
  simp only [graphTokens, List.append_assoc, List.append_cancel_left_eq] at h
  induction g generalizing g' with
  | nil =>
    cases g' with
    | nil => rfl
    | cons st g' => cases st <;> simp [Statement.tokens] at h
  | cons st g ih =>
    cases g' with
    | nil => cases st <;> simp [Statement.tokens] at h
    | cons st' g' =>
      rw [List.flatMap_cons, List.flatMap_cons, List.append_assoc, List.append_assoc] at h
      obtain ⟨rfl, rest⟩ := tokens_append_inj h
      rw [ih rest]

/-- A text can be read as one graph only. -/
theorem Written.unique {s : String} {g g' : List Statement} (h : Written s g)
    (h' : Written s g') : g = g' := by
  have same := h.symm.trans h'
  exact graphTokens_injective (Option.some.inj same)

end Unique

/-! ### Trees -/

/-- What a box stands for. -/
inductive Shape where
  | application
  | lambda
  | unknown
  | constant
deriving DecidableEq, Repr

/-- The attributes of a box besides its label. -/
def Shape.attributes : Shape → List (String × String)
  | application => []
  | lambda => [("fillcolor", "lightblue"), ("style", "filled")]
  | unknown => [("fillcolor", "lightgray"), ("style", "filled")]
  | constant => [("fillcolor", "white"), ("style", "filled")]

/-- An ordered tree of boxes. -/
inductive BoxTree where
  | node (shape : Shape) (label : String) (branches : List BoxTree)

mutual

/-- The tree of a term: the branches of an application are its head and its arguments, that of a
lambda is its body. -/
def drawn : Term → BoxTree
  | .app _ h as => .node .application "@" (drawn h :: drawnAll as)
  | .lam v b => .node .lambda (v.name ++ "->") [drawn b]
  | .var v => .node .unknown v.name []
  | .native c => .node .constant c.name []
  | .foreign x => .node .constant x.literal.text []
  | .named info _ => .node .constant info.name []

/-- The trees of the terms of a list. -/
def drawnAll : List Term → List BoxTree
  | [] => []
  | t :: ts => drawn t :: drawnAll ts

end

mutual

/-- The number of boxes. -/
def BoxTree.size : BoxTree → Nat
  | node _ _ ts => sizeAll ts + 1

/-- The number of boxes in the trees of a list. -/
def BoxTree.sizeAll : List BoxTree → Nat
  | [] => 0
  | t :: ts => size t + sizeAll ts

end

/-- What is written of a tree: a box with its number, or an edge between two numbers. -/
inductive Mark where
  | box (n : Nat) (shape : Shape) (label : String)
  | edge (parent child : Nat)

namespace Mark

/-- The statement that is written. -/
def statement : Mark → Statement
  | box n shape label => .node (ident n) (("label", label) :: shape.attributes)
  | edge p c => .edge (ident p) (ident c)

/-- The line that is written. -/
def line : Mark → String
  | box n .application label => nodeLine n ("label=\"" ++ escaped label ++ "\"")
  | box n .lambda label => nodeLine n (filled label "lightblue")
  | box n .unknown label => nodeLine n (filled label "lightgray")
  | box n .constant label => nodeLine n (filled label "white")
  | edge p c => edgeLine p c

end Mark

mutual

/-- What is written of a tree whose first box has number `n`: the box, and then its branches. -/
def BoxTree.marks (n : Nat) : BoxTree → List Mark
  | node shape label ts => .box n shape label :: branchMarks n (n + 1) ts

/-- What is written of branches of box `n`, the first of which has number `k`: each branch, followed
by the edge that leads to it. -/
def BoxTree.branchMarks (n k : Nat) : List BoxTree → List Mark
  | [] => []
  | t :: ts => marks k t ++ .edge n k :: branchMarks n (k + t.size) ts

end

open BoxTree

mutual

/-- The lines of a term are those of its tree. -/
theorem lines_eq_drawn (n : Nat) : ∀ t : Term,
    lines n t = (((drawn t).marks n).map Mark.line, n + (drawn t).size)
  | .app _ h as => by
    rw [lines, lines_eq_drawn (n + 1) h]
    dsimp only
    rw [linesOfParts_eq_drawn n _ as, drawn, marks, branchMarks, BoxTree.size, sizeAll]
    have label : escaped "@" = "@" := rfl
    simp only [List.map_cons, List.map_append, Mark.line, label, List.cons_append, Prod.mk.injEq]
    exact ⟨rfl, by omega⟩
  | .lam v b => by
    rw [lines, lines_eq_drawn (n + 1) b, drawn, marks, branchMarks, branchMarks, BoxTree.size,
      sizeAll, sizeAll]
    simp only [List.map_cons, List.map_append, List.map_nil, Mark.line, List.cons_append,
      Prod.mk.injEq, true_and]
    omega
  | .var _ => rfl
  | .native _ => rfl
  | .foreign _ => rfl
  | .named _ _ => rfl

theorem linesOfParts_eq_drawn (n k : Nat) : ∀ ts : List Term,
    linesOfParts n k ts = ((branchMarks n k (drawnAll ts)).map Mark.line, k + sizeAll (drawnAll ts))
  | [] => rfl
  | t :: ts => by
    rw [linesOfParts, lines_eq_drawn k t]
    dsimp only
    rw [linesOfParts_eq_drawn n _ ts, drawnAll, branchMarks, sizeAll]
    simp only [List.map_cons, List.map_append, Mark.line, Nat.add_assoc]

end

/-! ### Pictures -/

namespace Statement

/-- The boxes, in the order in which they are written. -/
def names (g : List Statement) : List String :=
  g.filterMap fun
    | node id _ => some id
    | edge _ _ => none

/-- The attributes of a box, once for every time it is written. -/
def attributesOf (g : List Statement) (id : String) : List (List (String × String)) :=
  g.filterMap fun
    | node a as => if a = id then some as else none
    | edge _ _ => none

/-- Where the edges from a box lead, in the order in which they are written. -/
def children (g : List Statement) (id : String) : List String :=
  g.filterMap fun
    | node _ _ => none
    | edge p c => if p = id then some c else none

/-- Where the edges to a box come from. -/
def parents (g : List Statement) (id : String) : List String :=
  g.filterMap fun
    | node _ _ => none
    | edge p c => if c = id then some p else none

end Statement

open Statement

mutual

/-- Whether statements show a tree at some box: the box is written once, with the attributes of the
tree, and its edges lead to the branches, in order. -/
def Shows (g : List Statement) (id : String) : BoxTree → Prop
  | .node shape label ts =>
    attributesOf g id = [("label", label) :: shape.attributes] ∧ ShowsAll g (children g id) ts

/-- Whether statements show the trees of a list at some boxes, in order. -/
def ShowsAll (g : List Statement) : List String → List BoxTree → Prop
  | [], [] => True
  | id :: ids, t :: ts => Shows g id t ∧ ShowsAll g ids ts
  | _, _ => False

end

/-- Whether statements are a picture of an ordered tree, and of no other: no box is written twice,
edges join boxes, the first box is reached from nowhere and every other one from exactly one box,
and what is shown at the first box is the tree. -/
structure Pictures (g : List Statement) (first : String) (x : BoxTree) : Prop where
  nodup : (names g).Nodup
  head : (names g).head? = some first
  edges : ∀ p c, .edge p c ∈ g → p ∈ names g ∧ c ∈ names g
  root : parents g first = []
  parent : ∀ id ∈ (names g).tail, ∃ p, parents g id = [p]
  shows : ∀ y, Shows g first y ↔ y = x

/-! ### Reading -/

/-- Whether a text does not end with a backslash. -/
def Sound (s : String) : Prop := s.toList.getLast? ≠ some '\\'

/-- Whether a label that is written does not end with a backslash. -/
def Mark.Sound : Mark → Prop
  | box _ _ label => Dot.Sound label
  | edge _ _ => True

section Reading

variable {s : String} {ts us : List Token} {m : Mark} {ms : List Mark} {p : Mode}
  {cs ds : List Char}

/-- The symbols of a text are what is read of it from one symbol's end to another's. -/
theorem tokens?_eq_some_iff : tokens? s = some ts ↔ Reads .between s.toList ts .between := by
  unfold tokens? Reads
  split
  · next us h => simp [h]
  · next h =>
    simp only [reduceCtorEq, false_iff]
    exact fun hr => h ts hr

/-- The name of a box is a word. -/
theorem reads_ident (n : Nat) {c : Char} (hc : isWord c = false) (ho : opened c = some (ts, p)) :
    Reads .between ((ident n).toList ++ [c]) (.id (ident n) :: ts) p := by
  have digits : (toString n).toList.all isWord = true := by
    rw [Nat.toString_eq_ofList_toDigits, String.toList_ofList, List.all_eq_true]
    intro d hd
    have digit := Nat.isDigit_of_mem_toDigits (by decide) (by decide) hd
    simp [isWord, Char.isAlphanum, digit]
  have whole : (ident n).toList = 'n' :: (toString n).toList := by
    rw [ident, String.toList_append]
    rfl
  refine reads_word (by simp [whole]) ?_ hc ho
  rw [whole, List.all_cons, digits]
  rfl

/-- What follows the label of a box. -/
private def closing : Shape → String
  | .application => "\"];\n"
  | .lambda => "\", fillcolor=lightblue, style=filled];\n"
  | .unknown => "\", fillcolor=lightgray, style=filled];\n"
  | .constant => "\", fillcolor=white, style=filled];\n"

/-- The line of a box, cut before and after the label. -/
private theorem toList_line_box (n : Nat) (shape : Shape) (label : String) :
    (Mark.box n shape label).line.toList = "  ".toList ++ ((ident n).toList ++ [' ']) ++
      "[label=\"".toList ++ (escaped label).toList ++ (closing shape).toList := by
  cases shape <;> simp [Mark.line, nodeLine, filled, closing]

private theorem toList_line_edge (n k : Nat) :
    (Mark.edge n k).line.toList = "  ".toList ++ ((ident n).toList ++ [' ']) ++ "-> ".toList ++
      ((ident k).toList ++ [';']) ++ "\n".toList := by
  simp [Mark.line, edgeLine]

/-- What is read of a box before its label. -/
private theorem reads_opening (n : Nat) :
    Reads .between ("  ".toList ++ ((ident n).toList ++ [' ']) ++ "[label=\"".toList)
      [.id (ident n), .mark '[', .id "label", .mark '='] (.quoted []) := by
  have blank : Reads .between "  ".toList [] .between := rfl
  have name := reads_ident n (c := ' ') rfl rfl
  have key : Reads .between "[label=\"".toList [.mark '[', .id "label", .mark '='] (.quoted []) :=
    rfl
  exact (blank.append name).append key

/-- The symbols of a box after its label. -/
private def closingTokens (shape : Shape) : List Token :=
  (attributeTokens (("", "") :: shape.attributes)).drop 3 ++ [.mark ';']

private theorem reads_closing (shape : Shape) (label : String) :
    Reads (.quoted label.toList) (closing shape).toList (.id label :: closingTokens shape)
      .between := by
  have close (cs : List Char) : Reads (.quoted cs) (closing shape).toList
      (.id (String.ofList cs) :: closingTokens shape) .between := by
    cases shape <;> rfl
  have whole := close label.toList
  rwa [String.ofList_toList] at whole

private theorem tokens_box (n : Nat) (shape : Shape) (label : String) :
    (Mark.box n shape label).statement.tokens =
      [.id (ident n), .mark '[', .id "label", .mark '='] ++ .id label :: closingTokens shape := by
  cases shape <;> rfl

/-- A line is read as its statement if its label is sound. -/
theorem Mark.Sound.reads (hm : m.Sound) :
    Reads .between m.line.toList m.statement.tokens .between := by
  cases m with
  | box n shape label =>
    have inside : Mode.inside label.toList = .quoted label.toList := if_neg hm
    have text := (reads_opening n).append (reads_escaped label)
    rw [List.append_nil, inside] at text
    rw [toList_line_box, tokens_box]
    exact text.append (reads_closing shape label)
  | edge n k =>
    rw [toList_line_edge]
    have blank : Reads .between "  ".toList [] .between := rfl
    have parent := reads_ident n (c := ' ') rfl rfl
    have arrow : Reads .between "-> ".toList [.arrow] .between := rfl
    have child := reads_ident k (c := ';') rfl rfl
    have stop : Reads .between "\n".toList [] .between := rfl
    exact (((blank.append parent).append arrow).append child).append stop

/-- A line that is read as its statement, whatever follows, has a sound label. -/
theorem Mark.sound_of_reads
    (h : Reads .between (m.line.toList ++ ds) (m.statement.tokens ++ us) p) : m.Sound := by
  cases m with
  | box n shape label =>
    intro hlast
    obtain ⟨cs, hcs⟩ : ∃ cs, (closing shape).toList = '"' :: cs := by
      cases shape <;> exact ⟨_, rfl⟩
    rw [toList_line_box, tokens_box, hcs, List.append_assoc, List.append_assoc] at h
    obtain ⟨vs, ws, q, hopening, hrest, heq⟩ := Reads.append_iff.mp h
    obtain ⟨rfl, rfl⟩ := hopening.unique (reads_opening n)
    rw [List.append_assoc, List.append_cancel_left_eq] at heq
    subst heq
    exact ne_of_reads_escaped hlast hrest rfl
  | edge n k => trivial

/-- Lines with sound labels are read as their statements. -/
theorem reads_lines (h : ∀ m ∈ ms, m.Sound) : Reads .between (ms.flatMap (·.line.toList))
    (ms.flatMap (·.statement.tokens)) .between := by
  induction ms with
  | nil => exact .nil _
  | cons m ms ih =>
    rw [List.forall_mem_cons] at h
    rw [List.flatMap_cons, List.flatMap_cons]
    exact h.1.reads.append (ih h.2)

/-- Lines that are read as their statements, whatever follows, have sound labels. -/
theorem sound_of_reads_lines (h : Reads .between (ms.flatMap (·.line.toList) ++ ds)
    (ms.flatMap (·.statement.tokens) ++ us) p) : ∀ m ∈ ms, m.Sound := by
  induction ms with
  | nil => exact List.forall_mem_nil _
  | cons m ms ih =>
    rw [List.flatMap_cons, List.flatMap_cons, List.append_assoc, List.append_assoc] at h
    have hm := Mark.sound_of_reads h
    obtain ⟨vs, ws, q, hline, hrest, heq⟩ := Reads.append_iff.mp h
    obtain ⟨rfl, rfl⟩ := hline.unique hm.reads
    rw [List.append_cancel_left_eq] at heq
    exact List.forall_mem_cons.mpr ⟨hm, ih (heq ▸ hrest)⟩

end Reading

/-- The statements of a drawing. -/
def statements (t : Term) : List Statement := ((drawn t).marks 1).map Mark.statement

/-- The text of a drawing can be read as its statements exactly if all labels are sound. -/
theorem written_text_iff_sound (t : Term) :
    Written (text t) (statements t) ↔ ∀ m ∈ (drawn t).marks 1, m.Sound := by
  have whole : (text t).toList = "digraph term \x7b\n  node [shape=box, style=rounded];\n".toList ++
      ((drawn t).marks 1).flatMap (·.line.toList) ++ "\x7d\n".toList := by
    rw [text, lines_eq_drawn, String.toList_join]
    simp [List.flatMap_map]
  have head : Reads .between "digraph term \x7b\n  node [shape=box, style=rounded];\n".toList
      preamble .between := rfl
  have last : Reads .between "\x7d\n".toList [.mark '\x7d'] .between := rfl
  rw [Written, tokens?_eq_some_iff, whole, graphTokens, statements, List.flatMap_map]
  constructor
  · intro h
    rw [List.append_assoc, List.append_assoc] at h
    obtain ⟨vs, ws, q, hhead, hrest, heq⟩ := Reads.append_iff.mp h
    obtain ⟨rfl, rfl⟩ := hhead.unique head
    rw [List.append_cancel_left_eq] at heq
    exact sound_of_reads_lines (heq ▸ hrest)
  · exact fun h => (head.append (reads_lines h)).append last

section Pictures

variable {g g' : List Statement} {n k : Nat} {id p c : String}

theorem ident_injective : Function.Injective ident := by
  intro n k h
  rw [ident, ident, String.append_right_inj, Nat.toString_eq_ofList_toDigits,
    Nat.toString_eq_ofList_toDigits, String.ofList_inj] at h
  rw [← Nat.ofDigitChars_ten_toDigits (n := n), h, Nat.ofDigitChars_ten_toDigits]

@[simp] theorem ident_inj : ident n = ident k ↔ n = k := ident_injective.eq_iff

theorem Shape.attributes_injective : Function.Injective Shape.attributes := by
  intro shape shape' h
  cases shape <;> cases shape' <;> first | rfl | simp [Shape.attributes] at h

mutual

/-- What is shown at a box is determined. -/
theorem Shows.unique : ∀ {id : String} {t u : BoxTree}, Shows g id t → Shows g id u → t = u
  | id, .node shape label ts, .node shape' label' us, ht, hu => by
    have same := ht.1.symm.trans hu.1
    simp only [List.cons.injEq, Prod.mk.injEq, true_and, and_true] at same
    obtain ⟨rfl, hshape⟩ := same
    rw [Shape.attributes_injective hshape, ShowsAll.unique ht.2 hu.2]

theorem ShowsAll.unique : ∀ {ids : List String} {ts us : List BoxTree}, ShowsAll g ids ts →
    ShowsAll g ids us → ts = us
  | [], [], [], _, _ => rfl
  | _ :: _, _ :: _, _ :: _, ht, hu => by
    rw [Shows.unique ht.1 hu.1, ShowsAll.unique ht.2 hu.2]

end

/-! What is read off statements is read off them one after the other. -/

@[simp] theorem names_append : names (g ++ g') = names g ++ names g' := List.filterMap_append

@[simp] theorem names_node {as : List (String × String)} :
    names (.node id as :: g) = id :: names g := rfl

@[simp] theorem names_edge : names (.edge p c :: g) = names g := rfl

@[simp] theorem attributesOf_append :
    attributesOf (g ++ g') id = attributesOf g id ++ attributesOf g' id := List.filterMap_append

@[simp] theorem attributesOf_node {as : List (String × String)} :
    attributesOf (.node p as :: g) id =
      if p = id then as :: attributesOf g id else attributesOf g id := by
  by_cases h : p = id <;> simp [attributesOf, h]

@[simp] theorem attributesOf_edge : attributesOf (.edge p c :: g) id = attributesOf g id := rfl

@[simp] theorem children_append : children (g ++ g') id = children g id ++ children g' id :=
  List.filterMap_append

@[simp] theorem children_node {as : List (String × String)} :
    children (.node p as :: g) id = children g id := rfl

@[simp] theorem children_edge : children (.edge p c :: g) id =
    if p = id then c :: children g id else children g id := by
  by_cases h : p = id <;> simp [children, h]

@[simp] theorem parents_append : parents (g ++ g') id = parents g id ++ parents g' id :=
  List.filterMap_append

@[simp] theorem parents_node {as : List (String × String)} :
    parents (.node p as :: g) id = parents g id := rfl

@[simp] theorem parents_edge : parents (.edge p c :: g) id =
    if c = id then p :: parents g id else parents g id := by
  by_cases h : c = id <;> simp [parents, h]

namespace BoxTree

/-- The statements of a tree whose first box has number `n`. -/
def block (n : Nat) (t : BoxTree) : List Statement := (t.marks n).map Mark.statement

/-- The statements of branches of box `n`, the first of which has number `k`. -/
def branchBlock (n k : Nat) (ts : List BoxTree) : List Statement :=
  (branchMarks n k ts).map Mark.statement

@[simp] theorem block_node (n : Nat) (shape : Shape) (label : String) (ts : List BoxTree) :
    block n (.node shape label ts) =
      .node (ident n) (("label", label) :: shape.attributes) :: branchBlock n (n + 1) ts := by
  rw [block, marks]
  rfl

@[simp] theorem branchBlock_nil (n k : Nat) : branchBlock n k [] = [] := rfl

@[simp] theorem branchBlock_cons (n k : Nat) (t : BoxTree) (ts : List BoxTree) :
    branchBlock n k (t :: ts) =
      t.block k ++ .edge (ident n) (ident k) :: branchBlock n (k + t.size) ts := by
  rw [branchBlock, branchMarks, List.map_append]
  rfl

theorem size_pos (t : BoxTree) : 0 < t.size := by
  cases t
  rw [size]
  exact Nat.succ_pos _

/-- The numbers of the first boxes of some trees. -/
def numbers (k : Nat) : List BoxTree → List Nat
  | [] => []
  | t :: ts => k :: numbers (k + t.size) ts

end BoxTree

mutual

/-- The boxes of a tree are numbered in the order in which they are written. -/
theorem names_block (n : Nat) : ∀ t : BoxTree, names (t.block n) = (List.range' n t.size).map ident
  | .node shape label ts => by
    rw [block_node, names_node, names_branchBlock n (n + 1) ts, BoxTree.size, List.range'_succ,
      List.map_cons]

theorem names_branchBlock (n k : Nat) : ∀ ts : List BoxTree,
    names (branchBlock n k ts) = (List.range' k (sizeAll ts)).map ident
  | [] => rfl
  | t :: ts => by
    rw [branchBlock_cons, names_append, names_edge, names_block k t, names_branchBlock n _ ts,
      sizeAll, ← List.range'_append_1, List.map_append]

end

mutual

/-- The statements of a tree say nothing of boxes with other numbers, except for the edge that
leads to it. -/
theorem block_silent {i : Nat} : ∀ (n : Nat) (t : BoxTree), i < n ∨ n + t.size ≤ i →
    attributesOf (t.block n) (ident i) = [] ∧ children (t.block n) (ident i) = []
  | n, .node shape label ts, hi => by
    rw [BoxTree.size] at hi
    have rest := branchBlock_silent n (n + 1) ts (i := i) (by omega) (by omega)
    have hn : n ≠ i := by omega
    simp [hn, rest]

theorem branchBlock_silent {i : Nat} : ∀ (n k : Nat) (ts : List BoxTree), i ≠ n →
    i < k ∨ k + sizeAll ts ≤ i →
    attributesOf (branchBlock n k ts) (ident i) = [] ∧ children (branchBlock n k ts) (ident i) = []
  | n, k, [], _, _ => ⟨rfl, rfl⟩
  | n, k, t :: ts, hn, hi => by
    rw [sizeAll] at hi
    have first := block_silent k t (i := i) (by omega)
    have rest := branchBlock_silent n (k + t.size) ts hn (by omega)
    simp [first, rest, Ne.symm hn]

end

/-- The edges from a box lead to the first boxes of its branches. -/
theorem children_branchBlock {n k : Nat} (hn : n < k) (ts : List BoxTree) :
    children (branchBlock n k ts) (ident n) = (numbers k ts).map ident := by
  induction ts generalizing k with
  | nil => rfl
  | cons t ts ih =>
    have first := (block_silent k t (.inl hn)).2
    simp [numbers, first, ih (k := k + t.size) (by omega)]

/-- Of some branches, the attributes are written of no box that is not theirs. -/
theorem attributesOf_branchBlock {n k : Nat} (hn : n < k) (ts : List BoxTree) :
    attributesOf (branchBlock n k ts) (ident n) = [] := by
  induction ts generalizing k with
  | nil => rfl
  | cons t ts ih =>
    have first := (block_silent k t (.inl hn)).1
    simp [first, ih (k := k + t.size) (by omega)]

mutual

/-- Statements show a tree if they say of its boxes what the tree does. -/
theorem shows_of_agree (n : Nat) : ∀ t : BoxTree, (∀ i, n ≤ i → i < n + t.size →
      attributesOf g (ident i) = attributesOf (t.block n) (ident i) ∧
        children g (ident i) = children (t.block n) (ident i)) → Shows g (ident n) t
  | .node shape label ts, h => by
    rw [BoxTree.size] at h
    have here := h n (Nat.le_refl n) (by omega)
    simp only [block_node, attributesOf_node, children_node, if_pos,
      attributesOf_branchBlock (Nat.lt_succ_self n), children_branchBlock (Nat.lt_succ_self n)]
      at here
    refine ⟨here.1, here.2 ▸ showsAll_of_agree n (n + 1) (Nat.lt_succ_self n) ts fun i hi hlt => ?_⟩
    have there := h i (by omega) (by omega)
    have hne : n ≠ i := by omega
    simpa [hne] using there

theorem showsAll_of_agree (n k : Nat) (hn : n < k) : ∀ ts : List BoxTree,
    (∀ i, k ≤ i → i < k + sizeAll ts →
      attributesOf g (ident i) = attributesOf (branchBlock n k ts) (ident i) ∧
        children g (ident i) = children (branchBlock n k ts) (ident i)) →
    ShowsAll g ((numbers k ts).map ident) ts
  | [], _ => trivial
  | t :: ts, h => by
    rw [sizeAll] at h
    refine ⟨shows_of_agree k t fun i hi hlt => ?_,
      showsAll_of_agree n (k + t.size) (by omega) ts fun i hi hlt => ?_⟩
    · have there := h i hi (by omega)
      have rest := branchBlock_silent n (k + t.size) ts (i := i) (by omega) (.inl hlt)
      have hne : n ≠ i := by omega
      simpa [rest, hne] using there
    · have there := h i (by omega) (by omega)
      have first := block_silent k t (i := i) (.inr hi)
      have hne : n ≠ i := by omega
      simpa [first, hne] using there

end

mutual

/-- Edges lead to all boxes of a tree but the first, to each from one box, and nowhere else. -/
theorem parents_block {i : Nat} : ∀ (n : Nat) (t : BoxTree),
    (n < i ∧ i < n + t.size → ∃ p, parents (t.block n) (ident i) = [p]) ∧
      (i ≤ n ∨ n + t.size ≤ i → parents (t.block n) (ident i) = [])
  | n, .node shape label ts => by
    rw [BoxTree.size, block_node, parents_node]
    obtain ⟨inside, outside⟩ := parents_branchBlock n (n + 1) ts (i := i)
    exact ⟨fun hi => inside (by omega), fun hi => outside (by omega)⟩

theorem parents_branchBlock {i : Nat} : ∀ (n k : Nat) (ts : List BoxTree),
    (k ≤ i ∧ i < k + sizeAll ts → ∃ p, parents (branchBlock n k ts) (ident i) = [p]) ∧
      (i < k ∨ k + sizeAll ts ≤ i → parents (branchBlock n k ts) (ident i) = [])
  | n, k, [] => by
    rw [sizeAll]
    exact ⟨fun hi => by omega, fun _ => rfl⟩
  | n, k, t :: ts => by
    rw [sizeAll]
    obtain ⟨inside, outside⟩ := parents_block k t (i := i)
    obtain ⟨insideRest, outsideRest⟩ := parents_branchBlock n (k + t.size) ts (i := i)
    have hpos := t.size_pos
    constructor
    · intro hi
      rcases Nat.lt_trichotomy i k with hlt | rfl | hlt
      · omega
      · simp [outside (by omega), outsideRest (by omega)]
      · have hne : k ≠ i := by omega
        by_cases hlast : i < k + t.size
        · simpa [hne, outsideRest (by omega)] using inside (by omega)
        · simpa [hne, outside (by omega)] using insideRest (by omega)
    · intro hi
      have hne : k ≠ i := by omega
      simp [hne, outside (by omega), outsideRest (by omega)]

end

mutual

/-- The edges of a tree join its boxes. -/
theorem names_of_edge_mem_block : ∀ (n : Nat) (t : BoxTree), .edge p c ∈ t.block n →
    p ∈ names (t.block n) ∧ c ∈ names (t.block n)
  | n, .node shape label ts, h => by
    simp only [block_node, List.mem_cons, reduceCtorEq, false_or] at h
    obtain ⟨hp, hc⟩ := names_of_edge_mem_branchBlock n (n + 1) ts h
    simp only [block_node, names_node, List.mem_cons]
    exact ⟨hp, .inr hc⟩

theorem names_of_edge_mem_branchBlock : ∀ (n k : Nat) (ts : List BoxTree),
    .edge p c ∈ branchBlock n k ts →
    (p = ident n ∨ p ∈ names (branchBlock n k ts)) ∧ c ∈ names (branchBlock n k ts)
  | n, k, t :: ts, h => by
    simp only [branchBlock_cons, List.mem_append, List.mem_cons, Statement.edge.injEq] at h
    simp only [branchBlock_cons, names_append, names_edge, List.mem_append]
    obtain h | ⟨rfl, rfl⟩ | h := h
    · obtain ⟨hp, hc⟩ := names_of_edge_mem_block k t h
      exact ⟨.inr (.inl hp), .inl hc⟩
    · refine ⟨.inl rfl, .inl ?_⟩
      cases t
      simp
    · obtain ⟨hp, hc⟩ := names_of_edge_mem_branchBlock n (k + t.size) ts h
      exact ⟨hp.imp_right .inr, .inr hc⟩

end

/-- The statements of a tree are a picture of it. -/
theorem pictures_block (n : Nat) (t : BoxTree) : Pictures (t.block n) (ident n) t where
  nodup := by
    rw [names_block]
    exact List.Nodup.map ident_injective (List.nodup_range' 1)
  head := by
    cases t
    simp
  edges _ _ h := names_of_edge_mem_block n t h
  root := (parents_block n t).2 (.inl (Nat.le_refl n))
  parent id hid := by
    obtain ⟨shape, label, ts⟩ := t
    rw [block_node, names_node, List.tail_cons, names_branchBlock, List.mem_map] at hid
    obtain ⟨i, hi, rfl⟩ := hid
    rw [List.mem_range'_1] at hi
    refine (parents_block n _).1 ?_
    rw [BoxTree.size]
    omega
  shows u := by
    have self := shows_of_agree (g := t.block n) n t fun _ _ _ => ⟨rfl, rfl⟩
    exact ⟨fun hu => hu.unique self, fun h => h ▸ self⟩

end Pictures

/-! ### Names at leaves -/

mutual

/-- The names at the leaves of a term. -/
def leafNames : Term → List String
  | .var v => [v.name]
  | .native c => [c.name]
  | .foreign x => [x.literal.text]
  | .named info _ => [info.name]
  | .lam _ b => leafNames b
  | .app _ h as => leafNames h ++ leafNamesOfAll as

/-- The names at the leaves of the terms of a list. -/
def leafNamesOfAll : List Term → List String
  | [] => []
  | t :: ts => leafNames t ++ leafNamesOfAll ts

end

mutual

/-- All labels are sound if the names at the leaves are: a lambda has an arrow at the end. -/
theorem sound_marks_iff (n : Nat) : ∀ t : Term,
    (∀ m ∈ (drawn t).marks n, m.Sound) ↔ ∀ name ∈ leafNames t, Sound name
  | .var v => by simp [drawn, marks, branchMarks, leafNames, Mark.Sound]
  | .native c => by simp [drawn, marks, branchMarks, leafNames, Mark.Sound]
  | .foreign x => by simp [drawn, marks, branchMarks, leafNames, Mark.Sound]
  | .named info d => by simp [drawn, marks, branchMarks, leafNames, Mark.Sound]
  | .lam v b => by
    have arrow : Sound (v.name ++ "->") := by simp [Sound]
    rw [leafNames, ← sound_marks_iff (n + 1) b]
    simp [drawn, marks, branchMarks, Mark.Sound, arrow, or_imp, forall_and]
  | .app _ h as => by
    have label : Sound "@" := by simp [Sound]
    rw [leafNames, List.forall_mem_append, ← sound_marks_iff (n + 1) h,
      ← sound_branchMarks_iff n (n + 1 + (drawn h).size) as]
    simp [drawn, marks, branchMarks, Mark.Sound, label, or_imp, forall_and]

theorem sound_branchMarks_iff (n k : Nat) : ∀ ts : List Term,
    (∀ m ∈ branchMarks n k (drawnAll ts), m.Sound) ↔ ∀ name ∈ leafNamesOfAll ts, Sound name
  | [] => by simp [drawnAll, branchMarks, leafNamesOfAll]
  | t :: ts => by
    rw [leafNamesOfAll, List.forall_mem_append, ← sound_marks_iff k t,
      ← sound_branchMarks_iff n (k + (drawn t).size) ts]
    simp [drawnAll, branchMarks, Mark.Sound, or_imp, forall_and]

end

/-- The statements of a term are a picture of its tree, and the text of the drawing can be read as
these statements, and as no others, exactly if no name at a leaf ends with a backslash. -/
theorem written_text_iff (t : Term) :
    Pictures (statements t) (ident 1) (drawn t) ∧
      ((∀ g, Written (text t) g ↔ g = statements t) ↔ ∀ name ∈ leafNames t, Sound name) := by
  refine ⟨pictures_block 1 (drawn t), ?_⟩
  rw [← sound_marks_iff 1, ← written_text_iff_sound]
  constructor
  · exact fun h => (h _).mpr rfl
  · exact fun h g => ⟨fun hg => hg.unique h, fun hg => hg ▸ h⟩

/-- The text of a variable that is named by a backslash cannot be read at all: the closing quote
goes into the label. -/
theorem not_written_backslash : ¬ ∃ g, Written (text (.var ⟨"\\", 1⟩)) g := by
  have unread : tokens? (text (.var ⟨"\\", 1⟩)) = none := by
    decide +kernel
  rintro ⟨g, hg⟩
  rw [Written, unread] at hg
  cases hg

end Combinatory.Dot
