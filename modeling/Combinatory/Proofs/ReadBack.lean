import Combinatory.Proofs.ReadBack.Symbols
import Combinatory.Proofs.WellFormed

/-!
# Renderings can be read back

Nothing is lost when a term is written, up to which terms its names stand for: from the text one
gets back the tree of its applications and lambdas with the names at its leaves and binders
(`readText_render`). The terse form leaves out a space only where no word would go on, and
parentheses only around what is written as a single symbol, so the symbols of a text are those of
the tree (`tokens_render`). A reader that keeps the groups it is in then finds the tree
(`readTokens_spelling`).
-/

namespace Combinatory

namespace Rendering

/-! ### Trees of names -/

/-- What is written of a term: a tree of applications and lambdas, with names at its leaves and
binders. -/
inductive NamedTree where
  | leaf (name : String)
  | lam (binder : String) (body : NamedTree)
  | app (head : NamedTree) (args : List NamedTree)
deriving Repr

/-- Symbols, in parentheses if need be. -/
def enclosedIf (b : Bool) (ts : List Token) : List Token :=
  if b then .opening :: (ts ++ [.closing]) else ts

namespace NamedTree

/-- Whether a tree is an application. -/
def isApp : NamedTree → Bool
  | app _ _ => true
  | _ => false

/-- A lambda is written in parentheses in front of its arguments. -/
def needsParens : NamedTree → Bool
  | lam _ _ => true
  | _ => false

/-- Whether the terse form has no parentheses around an argument. -/
def isBare : NamedTree → Bool
  | leaf x => x ≠ "+"
  | _ => false

mutual

/-- The symbols of a tree. -/
def spelling (terse : Bool) : NamedTree → List Token
  | leaf x => [.name x]
  | lam x b => .name x :: .arrow :: spelling terse b
  | app h as => enclosedIf h.needsParens (spelling terse h) ++ spellingAll terse as

/-- The symbols of arguments. -/
def spellingAll (terse : Bool) : List NamedTree → List Token
  | [] => []
  | a :: as => enclosedIf (!(terse && a.isBare)) (spelling terse a) ++ spellingAll terse as

end

mutual

/-- Whether every application has arguments, and a head that is no application. -/
def Flat : NamedTree → Prop
  | leaf _ => True
  | lam _ b => Flat b
  | app h as => as ≠ [] ∧ h.isApp = false ∧ Flat h ∧ FlatAll as

/-- Whether this holds of all trees of a list. -/
def FlatAll : List NamedTree → Prop
  | [] => True
  | a :: as => Flat a ∧ FlatAll as

end

variable {terse b : Bool} {t : NamedTree} {as : List NamedTree}

theorem length_enclosedIf_pos {ts : List Token} (h : 0 < ts.length) :
    0 < (enclosedIf b ts).length := by
  unfold enclosedIf
  split
  · exact Nat.succ_pos _
  · exact h

theorem length_spelling_pos : ∀ t : NamedTree, 0 < (t.spelling terse).length
  | leaf _ => Nat.one_pos
  | lam _ _ => Nat.succ_pos _
  | app h as => by
    have := length_enclosedIf_pos (b := h.needsParens) (length_spelling_pos h)
    rw [spelling, List.length_append]
    omega

/-- A lambda, and an application to something, has more than one symbol. -/
theorem one_lt_length_spelling (ht : t.Flat) (hleaf : ∀ x, t ≠ leaf x) :
    1 < (t.spelling terse).length := by
  cases t with
  | leaf x => exact absurd rfl (hleaf x)
  | lam x b => simp [spelling]
  | app h as =>
    obtain ⟨a, as, rfl⟩ := List.exists_cons_of_ne_nil ht.1
    have hh := length_enclosedIf_pos (b := h.needsParens) (@length_spelling_pos terse h)
    have ha := length_enclosedIf_pos (b := !(terse && a.isBare))
      (@length_spelling_pos terse a)
    rw [spelling, spellingAll, List.length_append, List.length_append]
    omega

end NamedTree

/-! ### Reading -/

/-- What has been read between parentheses: the binders in front, and the parts of an
application. -/
structure Group where
  binders : List String
  parts : List NamedTree

namespace Group

/-- The tree of a group that is complete. -/
def tree? (g : Group) : Option NamedTree :=
  match g.parts with
  | [] => none
  | [t] => some (g.binders.foldr .lam t)
  | h :: as => some (g.binders.foldr .lam (.app h as))

/-- One part more. -/
def add (g : Group) (t : NamedTree) : Group := { g with parts := g.parts ++ [t] }

/-- The only part is a binder after all. -/
def bind? : Group → Option Group
  | ⟨binders, [.leaf x]⟩ => some ⟨binders ++ [x], []⟩
  | _ => none

/-- The group of a tree, after some binders. -/
def of (binders : List String) : NamedTree → Group
  | .leaf x => ⟨binders, [.leaf x]⟩
  | .lam x b => of (binders ++ [x]) b
  | .app h as => ⟨binders, h :: as⟩

theorem tree?_of : ∀ {t : NamedTree} {binders : List String}, t.Flat →
    (of binders t).tree? = some (binders.foldr .lam t)
  | .leaf _, _, _ => rfl
  | .lam x b, binders, ht => by
    rw [of, tree?_of (t := b) ht, List.foldr_append]
    rfl
  | .app h as, binders, ht => by
    obtain ⟨a, as, rfl⟩ := List.exists_cons_of_ne_nil ht.1
    rfl

end Group

/-- Reads symbols inside of some groups. -/
def readTokens (outer : List Group) (g : Group) : List Token → Option NamedTree
  | [] => if outer.isEmpty then g.tree? else none
  | .name x :: ts => readTokens outer (g.add (.leaf x)) ts
  | .arrow :: ts => g.bind?.bind fun g => readTokens outer g ts
  | .opening :: ts => readTokens (g :: outer) ⟨[], []⟩ ts
  | .closing :: ts =>
    match outer with
    | [] => none
    | g' :: outer => g.tree?.bind fun t => readTokens outer (g'.add t) ts

/-- Reads a text. -/
def readText (s : String) : Option NamedTree := readTokens [] ⟨[], []⟩ (tokens [] s.toList)

section

variable {terse : Bool} {outer : List Group} {g : Group} {binders : List String}
  {parts as : List NamedTree} {rest : List Token} {t : NamedTree}

/-- What is read in parentheses is one part. -/
private theorem readTokens_enclosed (ht : t.Flat)
    (ih : ∀ (outer : List Group) (rest : List Token),
      readTokens outer ⟨[], []⟩ (t.spelling terse ++ rest) = readTokens outer (.of [] t) rest) :
    readTokens outer g (.opening :: (t.spelling terse ++ [.closing]) ++ rest) =
      readTokens outer (g.add t) rest := by
  rw [List.cons_append, List.append_assoc, readTokens, ih]
  simp [readTokens, Group.tree?_of ht]

mutual

/-- The symbols of a tree are read as its group. -/
theorem readTokens_spelling : ∀ {t : NamedTree}, t.Flat →
    ∀ (binders : List String) (outer : List Group) (rest : List Token),
      readTokens outer ⟨binders, []⟩ (t.spelling terse ++ rest) =
        readTokens outer (.of binders t) rest
  | .leaf _, _, _, _, _ => rfl
  | .lam x b, ht, binders, outer, rest =>
    readTokens_spelling (t := b) ht (binders ++ [x]) outer rest
  | .app h as, ht, binders, outer, rest => by
    have hh : readTokens outer ⟨binders, []⟩
        (enclosedIf h.needsParens (h.spelling terse) ++ (NamedTree.spellingAll terse as ++ rest)) =
        readTokens outer ⟨binders, [h]⟩ (NamedTree.spellingAll terse as ++ rest) := by
      cases h with
      | leaf x => rfl
      | lam x b => exact readTokens_enclosed ht.2.2.1 (readTokens_spelling ht.2.2.1 [])
      | app g bs => cases ht.2.1
    rw [NamedTree.spelling, List.append_assoc, hh, readTokens_spellingAll ht.2.2.2]
    rfl

/-- The symbols of arguments are read as parts. -/
theorem readTokens_spellingAll : ∀ {as : List NamedTree}, NamedTree.FlatAll as →
    ∀ (parts : List NamedTree) {binders : List String} {outer : List Group} {rest : List Token},
      readTokens outer ⟨binders, parts⟩ (NamedTree.spellingAll terse as ++ rest) =
        readTokens outer ⟨binders, parts ++ as⟩ rest
  | [], _, parts, _, _, _ => by
    rw [List.append_nil]
    rfl
  | a :: as, ht, parts, binders, outer, rest => by
    have ha : readTokens outer ⟨binders, parts⟩
        (enclosedIf (!(terse && a.isBare)) (a.spelling terse) ++
          (NamedTree.spellingAll terse as ++ rest)) =
        readTokens outer ⟨binders, parts ++ [a]⟩ (NamedTree.spellingAll terse as ++ rest) := by
      rw [enclosedIf]
      split
      · exact readTokens_enclosed ht.1 (readTokens_spelling ht.1 [])
      · next hbare =>
        cases a with
        | leaf x => rfl
        | lam x b => simp [NamedTree.isBare] at hbare
        | app h bs => simp [NamedTree.isBare] at hbare
    rw [NamedTree.spellingAll, List.append_assoc, ha, readTokens_spellingAll ht.2,
      List.append_assoc]
    rfl

end

end

/-- Whether the last word of a shape might go on. -/
def Shape.mayGoOn : Shape → Bool
  | .lower => true
  | .unknown => true
  | _ => false

/-- Only parentheses may follow such a shape without a space. -/
theorem Shape.eq_parens_of_lumps {x y : Shape} (hx : x.mayGoOn = true) (h : x.lumps y = true) :
    y = .parens := by
  cases x with
  | parens | upper => cases hx
  | unknown | lower =>
    cases y with
    | parens => rfl
    | unknown | upper | lower => cases h

end Rendering

namespace Term

open Rendering

mutual

/-- What is written of a term. -/
def tree : Term → NamedTree
  | var v => .leaf v.name
  | native c => .leaf c.name
  | foreign x => .leaf x.literal.text
  | named info _ => .leaf info.name
  | lam v b => .lam v.name (tree b)
  | app _ h as => .app (tree h) (trees as)

/-- What is written of a list of terms. -/
def trees : List Term → List NamedTree
  | [] => []
  | a :: as => tree a :: trees as

end

mutual

/-- Whether the names in a term can be told apart: variables and binders have the name of an
identifier; a combinator or a name may also be a plus, and a combinator a numeral. -/
def Labelled : Term → Prop
  | var v => isIdentifier v.name = true
  | native c => isIdentifier c.name = true ∨ c.name = "+" ∨ ∃ n, c = .numeral n
  | foreign _ => False
  | named info _ => isIdentifier info.name = true ∨ info.name = "+"
  | lam v b => isIdentifier v.name = true ∧ Labelled b
  | app _ h as => Labelled h ∧ LabelledAll as

/-- Whether this holds of all terms of a list. -/
def LabelledAll : List Term → Prop
  | [] => True
  | a :: as => Labelled a ∧ LabelledAll as

end

mutual

/-- What applying builds is written as a flat tree. -/
theorem WellFormed.flat_tree : ∀ {t : Term}, t.WellFormed → t.tree.Flat
  | var _, _ => trivial
  | native _, _ => trivial
  | foreign _, _ => trivial
  | named _ _, _ => trivial
  | lam _ b, ht => WellFormed.flat_tree (t := b) ht
  | app _ h as, ⟨hst, hh, has⟩ => by
    refine ⟨?_, ?_, hh.flat_tree, has.flat_trees⟩
    · obtain ⟨a, as, rfl⟩ := List.exists_cons_of_ne_nil hst.nonempty
      exact List.cons_ne_nil _ _
    · cases h with
      | app n g bs => exact absurd rfl (hst.flat n g bs)
      | _ => rfl

theorem WellFormedAll.flat_trees : ∀ {ts : List Term}, WellFormedAll ts →
    NamedTree.FlatAll (trees ts)
  | [], _ => trivial
  | _ :: _, hts => ⟨hts.1.flat_tree, hts.2.flat_trees⟩

end

/-! ### Parts -/

variable {t : Term} {s : String} {first terse : Bool} {rest : List Char}

/-- The symbols of a text in parentheses. -/
private theorem tokens_parens {ts : List Token}
    (h : ∀ rest, Parted rest → tokens [] (s.toList ++ rest) = ts ++ tokens [] rest) :
    tokens [] (("(" ++ s ++ ")").toList ++ rest) =
      .opening :: (ts ++ [.closing]) ++ tokens [] rest := by
  have inside := h (')' :: rest) (parted_cons (by decide))
  simp only [String.toList_append, List.append_assoc]
  change tokens [] ('(' :: (s.toList ++ ')' :: rest)) = _
  rw [tokens, if_neg (by decide), if_neg (by decide), if_pos rfl, inside, tokens,
    if_neg (by decide), if_neg (by decide), if_neg (by decide), if_pos rfl]
  simp [flush]

/-- A capital is one symbol. -/
private theorem tokens_capital {c : Char} (hs : s.toList = [c]) (hc : isCapital c = true) :
    tokens [] (s.toList ++ rest) = .name s :: tokens [] rest := by
  have names {d : Char} (hd : isCapital d = false) : c ≠ d := by
    rintro rfl
    rw [hd] at hc
    cases hc
  have hne : ¬ (c = ' ' ∨ c = '-' ∨ c = '\n') := by
    rintro (rfl | rfl | rfl) <;> cases hc
  rw [hs, List.singleton_append, tokens, isInner_eq_false_of_isCapital hc, if_neg (by decide),
    if_neg hne, if_neg (names (by decide)), if_neg (names (by decide)),
    if_neg (names (by decide)), ← hs, String.ofList_toList]
  rfl

/-- The symbols of a name that stands on its own. -/
private theorem tokens_name (h : isIdentifier s = true ∨ s = "+" ∨ ∃ n : Nat, s = toString n)
    (hrest : Parted rest) : tokens [] (s.toList ++ rest) = .name s :: tokens [] rest := by
  obtain h | rfl | ⟨n, rfl⟩ := h
  · obtain ⟨-, c, hs, hc⟩ | ⟨-, hne, hinner⟩ := isIdentifier_cases h
    · exact tokens_capital hs hc
    · exact tokens_word hne hinner hrest
  · rfl
  · obtain ⟨-, hne, hinner⟩ := isNumber_toString n
    exact tokens_word hne hinner hrest

/-- The symbols of the part of a name. -/
private theorem tokens_part_name (hparens : t.needsParens = false)
    (hvar : t.isVar = true → isIdentifier s = true)
    (h : isIdentifier s = true ∨ s = "+" ∨ ∃ n : Nat, s = toString n)
    (hrest : (part first t s).2.mayGoOn = true → Parted rest) :
    tokens [] ((part first t s).1.toList ++ rest) =
      enclosedIf (!first && decide (s = "+")) [.name s] ++ tokens [] rest := by
  obtain h | rfl | ⟨n, rfl⟩ := h
  · obtain ⟨hupper, c, hs, hc⟩ | ⟨hlower, hne, hinner⟩ := isIdentifier_cases h
    · have hplus : s ≠ "+" := by
        rintro rfl
        cases hupper
      rw [part, if_pos hupper, tokens_capital hs hc]
      simp [hplus, enclosedIf]
    · have hplus : s ≠ "+" := by
        rintro rfl
        cases hlower
      have hupper := isUpper_of_inner hinner
      have hpart : part first t s = (s, .lower) := by simp [part, hupper, hlower]
      rw [hpart] at hrest ⊢
      rw [tokens_word hne hinner (hrest rfl)]
      simp [hplus, enclosedIf]
  · have hvar : t.isVar = false := by
      by_contra hv
      cases hvar (Bool.not_eq_false _ ▸ hv)
    have hpart : part first t "+" = if first then ("+", .unknown) else ("(+)", .parens) := by
      have : isUpper "+" = false ∧ isLower "+" = false ∧ isNumber "+" = false := ⟨rfl, rfl, rfl⟩
      cases first <;> simp [part, this, hvar, hparens]
    rw [hpart]
    cases first <;> rfl
  · obtain ⟨hnumber, hne, hinner⟩ := isNumber_toString n
    have hplus : toString n ≠ "+" := by
      intro heq
      rw [heq] at hnumber
      cases hnumber
    have hpart : (part first t (toString n)).1 = toString n ∧
        (part first t (toString n)).2.mayGoOn = true := by
      rw [part, isUpper_of_inner hinner, if_neg Bool.false_ne_true, if_pos hnumber]
      split <;> exact ⟨rfl, rfl⟩
    rw [hpart.1, tokens_word hne hinner (hrest hpart.2), decide_eq_false hplus, Bool.and_false]
    rfl

/-- The symbols of the part of a lambda or an application. -/
private theorem tokens_part_compound {ts : List Token} (hvar : t.isVar = false)
    (hfirst : first = true → t.needsParens = true) (hlen : 1 < ts.length)
    (h : ∀ rest, Parted rest → tokens [] (s.toList ++ rest) = ts ++ tokens [] rest) :
    tokens [] ((part first t s).1.toList ++ rest) =
      .opening :: (ts ++ [.closing]) ++ tokens [] rest := by
  have hword : ¬ (isUpper s = true ∨ isLower s = true ∨ isNumber s = true) := by
    intro hs
    have := length_tokens_le_one hs
    have heq := h [] parted_nil
    rw [List.append_nil, tokens, flush, List.append_nil] at heq
    rw [heq] at this
    omega
  push Not at hword
  have hpart : part first t s = ("(" ++ s ++ ")", .parens) := by
    cases first with
    | false => simp [part, hword, hvar]
    | true => simp [part, hword, hvar, hfirst]
  rw [hpart, tokens_parens h]

/-- The symbols of a part: those of its tree, in parentheses where the tree has them. -/
private theorem tokens_part (first : Bool) (ht : t.Labelled) (hflat : t.tree.Flat)
    (hfirst : first = true → t.tree.isApp = false)
    (h : ∀ rest, Parted rest →
      tokens [] ((t.render true).toList ++ rest) = t.tree.spelling true ++ tokens [] rest)
    (hrest : (part first t (t.render true)).2.mayGoOn = true → Parted rest) :
    tokens [] ((part first t (t.render true)).1.toList ++ rest) =
      enclosedIf (if first then t.tree.needsParens else !t.tree.isBare) (t.tree.spelling true) ++
        tokens [] rest := by
  have leaf {x : String} (htree : t.tree = .leaf x) (hx : t.render true = x)
      (hparens : t.needsParens = false) (hvar : t.isVar = true → isIdentifier x = true)
      (hname : isIdentifier x = true ∨ x = "+" ∨ ∃ n : Nat, x = toString n) :
      tokens [] ((part first t (t.render true)).1.toList ++ rest) =
        enclosedIf (if first then t.tree.needsParens else !t.tree.isBare)
          (t.tree.spelling true) ++ tokens [] rest := by
    rw [hx] at hrest ⊢
    rw [tokens_part_name hparens hvar hname hrest, htree]
    cases first <;> simp [NamedTree.needsParens, NamedTree.isBare, NamedTree.spelling]
  cases t with
  | var v => exact leaf rfl rfl rfl (fun _ => ht) (.inl ht)
  | native c =>
    refine leaf rfl rfl rfl (fun h => absurd h Bool.false_ne_true) ?_
    obtain h | h | ⟨n, rfl⟩ := ht
    exacts [.inl h, .inr (.inl h), .inr (.inr ⟨n, rfl⟩)]
  | foreign x => exact ht.elim
  | named info d =>
    refine leaf rfl rfl rfl (fun h => absurd h Bool.false_ne_true) ?_
    obtain h | h := ht
    exacts [.inl h, .inr (.inl h)]
  | lam v b =>
    rw [tokens_part_compound rfl (fun _ => rfl)
      (NamedTree.one_lt_length_spelling hflat nofun) h]
    cases first <;> rfl
  | app n f as =>
    have hfirst : first = false := Bool.eq_false_iff.mpr fun h => Bool.noConfusion (hfirst h)
    rw [tokens_part_compound rfl (fun h => absurd h (by simp [hfirst]))
      (NamedTree.one_lt_length_spelling hflat nofun) h, hfirst]
    rfl

/-- A part of the shape of parentheses starts with one. -/
private theorem toList_part_of_parens (h : (part first t s).2 = .parens) :
    ∃ cs, (part first t s).1.toList = '(' :: cs := by
  unfold part at h ⊢
  split_ifs at h ⊢
  exact ⟨(s ++ ")").toList, by simp only [String.toList_append]; rfl⟩

/-- Where a word might go on, what follows it in terse form does not go on with it. -/
private theorem parted_renderTerse (shape : Shape) (as : List Term) (hrest : Parted rest)
    (hshape : shape.mayGoOn = true) : Parted ((renderTerse shape as).toList ++ rest) := by
  cases as with
  | nil => exact hrest
  | cons a as =>
    rw [renderTerse]
    dsimp only
    split
    · next hlumps =>
      obtain ⟨cs, hcs⟩ := toList_part_of_parens (Shape.eq_parens_of_lumps hshape hlumps)
      rw [String.toList_append, hcs]
      exact parted_cons (by decide)
    · simp only [String.toList_append, List.append_assoc]
      exact parted_cons (by decide)

/-- No word goes on with arguments in verbose form. -/
private theorem parted_renderVerbose (as : List Term) (hrest : Parted rest) :
    Parted ((renderVerbose as).toList ++ rest) := by
  cases as with
  | nil => exact hrest
  | cons a as =>
    rw [renderVerbose]
    simp only [String.toList_append, List.append_assoc]
    exact parted_cons (by decide)

mutual

/-- The symbols of a text are those of the tree that is written. -/
theorem tokens_render (terse : Bool) : ∀ {t : Term}, t.Labelled → t.tree.Flat →
    ∀ {rest : List Char}, Parted rest →
      tokens [] ((t.render terse).toList ++ rest) = t.tree.spelling terse ++ tokens [] rest
  | var v, ht, _, _, hrest => tokens_name (.inl ht) hrest
  | native c, ht, _, _, hrest => by
    refine tokens_name ?_ hrest
    obtain h | h | ⟨n, rfl⟩ := ht
    exacts [.inl h, .inr (.inl h), .inr (.inr ⟨n, rfl⟩)]
  | foreign _, ht, _, _, _ => ht.elim
  | named info _, ht, _, _, hrest => by
    refine tokens_name ?_ hrest
    obtain h | h := ht
    exacts [.inl h, .inr (.inl h)]
  | lam v b, ⟨hv, hb⟩, hflat, rest, hrest => by
    have arrow : Parted ("->".toList ++ ((b.render terse).toList ++ rest)) :=
      parted_cons (by decide)
    have hname := tokens_name (.inl hv) arrow
    rw [render, String.toList_append, String.toList_append, List.append_assoc, List.append_assoc,
      hname]
    change _ = _ :: _ :: (b.tree.spelling terse ++ tokens [] rest)
    rw [← tokens_render terse hb hflat hrest]
    rfl
  | app n h as, ⟨hh, has⟩, ⟨_, happ, hhflat, hasflat⟩, rest, hrest => by
    have ih (terse : Bool) (rest : List Char) (hrest : Parted rest) :=
      tokens_render terse hh hhflat hrest
    rw [tree, NamedTree.spelling, List.append_assoc]
    cases terse with
    | true =>
      rw [render, if_pos rfl]
      dsimp only
      rw [String.toList_append, List.append_assoc,
        tokens_part true hh hhflat (fun _ => happ) (ih true) (parted_renderTerse _ as hrest),
        tokens_renderTerse as _ has hasflat hrest]
      rfl
    | false =>
      rw [render, if_neg Bool.false_ne_true, String.toList_append, List.append_assoc,
        ← tokens_renderVerbose as has hasflat hrest]
      cases h with
      | lam v b => exact tokens_parens (ih false)
      | app m g bs => cases happ
      | _ => exact ih false _ (parted_renderVerbose as hrest)

/-- The symbols of arguments in terse form. -/
theorem tokens_renderTerse : ∀ (as : List Term) (before : Shape), LabelledAll as →
    NamedTree.FlatAll (trees as) → ∀ {rest : List Char}, Parted rest →
      tokens [] ((renderTerse before as).toList ++ rest) =
        NamedTree.spellingAll true (trees as) ++ tokens [] rest
  | [], _, _, _, _, _ => rfl
  | a :: as, before, ⟨ha, has⟩, hflat, rest, hrest => by
    have hpart := tokens_part false ha hflat.1 (fun h => absurd h Bool.false_ne_true)
      (fun rest hrest => tokens_render true ha hflat.1 hrest)
      (parted_renderTerse _ as hrest)
    have hspace (s : String) (rest : List Char) :
        tokens [] ((" " ++ s).toList ++ rest) = tokens [] (s.toList ++ rest) := by
      rw [String.toList_append]
      rfl
    rw [renderTerse, trees, NamedTree.spellingAll, List.append_assoc,
      ← tokens_renderTerse as _ has hflat.2 hrest]
    dsimp only
    rw [String.toList_append, List.append_assoc]
    split
    · exact hpart
    · rw [hspace]
      exact hpart

/-- The symbols of arguments in verbose form. -/
theorem tokens_renderVerbose : ∀ (as : List Term), LabelledAll as →
    NamedTree.FlatAll (trees as) → ∀ {rest : List Char}, Parted rest →
      tokens [] ((renderVerbose as).toList ++ rest) =
        NamedTree.spellingAll false (trees as) ++ tokens [] rest
  | [], _, _, _, _ => rfl
  | a :: as, ⟨ha, has⟩, hflat, rest, hrest => by
    rw [renderVerbose, String.toList_append, List.append_assoc,
      tokens_parens fun rest hrest => tokens_render false ha hflat.1 hrest,
      tokens_renderVerbose as has hflat.2 hrest]
    simp [trees, NamedTree.spellingAll, enclosedIf]

end

/-- What is read of a written term is its tree. -/
theorem readText_render {t : Term} (ht : t.Labelled) (hflat : t.tree.Flat) (terse : Bool) :
    readText (t.render terse) = some t.tree := by
  have symbols := tokens_render terse ht hflat parted_nil
  have group : readTokens [] ⟨[], []⟩ (t.tree.spelling terse ++ []) = _ :=
    readTokens_spelling hflat [] [] []
  rw [List.append_nil] at symbols group
  rw [tokens, flush, List.append_nil] at symbols
  rw [readText, symbols, group]
  exact Group.tree?_of hflat

/-- What applying builds is flat, so that it is read back whatever was applied. -/
theorem WellFormed.readText_eq {t : Term} (ht : t.WellFormed) (hl : t.Labelled) (terse : Bool) :
    readText (t.render terse) = some t.tree :=
  readText_render hl ht.flat_tree terse

/-- Well-formed terms that are written alike are the same tree: no application heads another one in
what was built by applying, so that only the names must be such that they can be told apart. -/
theorem WellFormed.tree_eq {t u : Term} (ht : t.WellFormed) (hu : u.WellFormed) (htl : t.Labelled)
    (hul : u.Labelled) (terse : Bool) (h : t.render terse = u.render terse) : t.tree = u.tree := by
  have written := ht.readText_eq htl terse
  rw [h, hu.readText_eq hul terse] at written
  exact (Option.some.inj written).symm

/-- Renderings can be read back: terms that are written alike, both in terse or both in verbose
form, are the same tree of applications and lambdas, with the same names at the leaves and binders.
The names must be such that they can be told apart, and no application may head another one. -/
theorem tree_eq_of_render_eq {t u : Term} (ht : t.Labelled) (hu : u.Labelled)
    (htflat : t.tree.Flat) (huflat : u.tree.Flat) (terse : Bool)
    (h : t.render terse = u.render terse) : t.tree = u.tree := by
  have ht := readText_render ht htflat terse
  rw [h, readText_render hu huflat terse] at ht
  exact (Option.some.inj ht).symm

namespace ReadBack

/-- The term `S(KI)a(b->x c)` for a variable or a name `x`. -/
def sample (x : Term) (node : Nat) : Term :=
  .app node (.native .S) [.app (node + 1) (.native .K) [.native .I], .var ⟨"a", 1⟩,
    .lam ⟨"b", 2⟩ (.app (node + 2) x [.var ⟨"c", 3⟩])]

theorem labelled_sample {x : Term} (hx : x.Labelled) (node : Nat) : (sample x node).Labelled :=
  ⟨.inl rfl, ⟨.inl rfl, .inl rfl, trivial⟩, rfl, ⟨rfl, hx, rfl, trivial⟩, trivial⟩

theorem flat_sample {x : Term} (hx : x.tree.Flat) (happ : x.tree.isApp = false) (node : Nat) :
    (sample x node).tree.Flat :=
  ⟨nofun, rfl, trivial, ⟨nofun, rfl, trivial, trivial, trivial⟩, trivial,
    ⟨nofun, happ, hx, trivial, trivial⟩, trivial⟩

/-- A name that is written like a variable. -/
def sampleName : Term := .named ⟨0, "x", .number 0, .bool false, .bool false, .null⟩ (.native .W)

/-- A variable and a name that are written alike make the same text, and the same tree. -/
theorem tree_sample_eq : (sample (.var ⟨"x", 4⟩) 0).tree = (sample sampleName 5).tree :=
  have hx : (var ⟨"x", 4⟩).Labelled := rfl
  have hn : sampleName.Labelled := .inl rfl
  tree_eq_of_render_eq (labelled_sample hx 0) (labelled_sample hn 5)
    (flat_sample (x := var ⟨"x", 4⟩) trivial rfl 0) (flat_sample (x := sampleName) trivial rfl 5)
    true rfl

end ReadBack

end Term

end Combinatory
