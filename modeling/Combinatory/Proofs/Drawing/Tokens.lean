import Combinatory.Dot
import Mathlib.Data.List.Basic

/-!
# Symbols of a DOT text

A DOT text is read character by character into symbols: identifiers, arrows and marks. An identifier
is a word, or any text between double quotes, in which a backslash directly before a quote makes the
quote a part of it. What is read of some text does not depend on what follows, except for a word or
a quoted text that may still go on (`Reads.append`). So a label is read back from its quoted form
if it does not end with a backslash (`reads_escaped`). If it does, the backslash takes the closing
quote into the label, and whatever is read then is another one (`ne_of_reads_escaped`).
-/

namespace Combinatory.Dot

/-- The symbols of a DOT text. -/
inductive Token where
  | id (s : String)
  | arrow
  | mark (c : Char)
deriving DecidableEq, Repr

/-- Where in a symbol the reader is, with what it has read of it. -/
inductive Mode where
  | between
  | word (read : List Char)
  | quoted (read : List Char)
  /-- Between quotes, after a backslash. -/
  | escape (read : List Char)
  | dash
deriving DecidableEq, Repr

/-- The characters that words are made of. -/
def isWord (c : Char) : Bool := c.isAlphanum || c = '_'

/-- What a character is at the beginning of a symbol. -/
def opened (c : Char) : Option (List Token × Mode) :=
  if isWord c then some ([], .word [c])
  else if c = '"' then some ([], .quoted [])
  else if c = '-' then some ([], .dash)
  else if c = ' ' ∨ c = '\n' then some ([], .between)
  else if c ∈ ['\x7b', '\x7d', '[', ']', '=', ',', ';'] then some ([.mark c], .between)
  else none

namespace Mode

/-- The symbols that one more character completes, and where the reader is then. -/
def step : Mode → Char → Option (List Token × Mode)
  | between, c => opened c
  | word cs, c =>
    if isWord c then some ([], word (cs ++ [c]))
    else (opened c).map fun (ts, m) => (.id (String.ofList cs) :: ts, m)
  | quoted cs, c =>
    if c = '"' then some ([.id (String.ofList cs)], between)
    else if c = '\\' then some ([], escape cs)
    else some ([], quoted (cs ++ [c]))
  | escape cs, c =>
    if c = '"' then some ([], quoted (cs ++ ['"']))
    else if c = '\\' then some ([], escape (cs ++ ['\\']))
    else some ([], quoted (cs ++ ['\\', c]))
  | dash, c => if c = '>' then some ([.arrow], between) else none

/-- The symbols that some text completes, and where the reader is then. -/
def read : Mode → List Char → Option (List Token × Mode)
  | m, [] => some ([], m)
  | m, c :: cs =>
    match m.step c with
    | none => none
    | some (ts, m') => (m'.read cs).map fun (us, m'') => (ts ++ us, m'')

end Mode

/-- The symbols of a text, if it consists of symbols. -/
def tokens? (s : String) : Option (List Token) :=
  match Mode.between.read s.toList with
  | some (ts, .between) => some ts
  | _ => none

/-- The text is read as these symbols on the way from one mode to another. -/
def Reads (m : Mode) (cs : List Char) (ts : List Token) (m' : Mode) : Prop :=
  m.read cs = some (ts, m')

namespace Reads

variable {m m₁ m₂ : Mode} {c : Char} {cs ds : List Char} {ts us : List Token}

theorem nil (m : Mode) : Reads m [] [] m := rfl

/-- One character is read after another. -/
theorem cons_iff : Reads m (c :: cs) ts m₂ ↔
    ∃ us vs m₁, m.step c = some (us, m₁) ∧ Reads m₁ cs vs m₂ ∧ ts = us ++ vs := by
  unfold Reads
  rw [Mode.read]
  cases h : m.step c with
  | none => simp
  | some p =>
    obtain ⟨us, m₁⟩ := p
    simp only [Option.map_eq_some_iff, Prod.mk.injEq, Prod.exists, Option.some.injEq]
    constructor
    · rintro ⟨vs, m', hr, rfl, rfl⟩
      exact ⟨us, vs, m₁, ⟨rfl, rfl⟩, hr, rfl⟩
    · rintro ⟨us', vs, m', ⟨rfl, rfl⟩, hr, rfl⟩
      exact ⟨vs, m₂, hr, rfl, rfl⟩

/-- A text is read part by part. -/
theorem append_iff : Reads m (cs ++ ds) ts m₂ ↔
    ∃ us vs m₁, Reads m cs us m₁ ∧ Reads m₁ ds vs m₂ ∧ ts = us ++ vs := by
  induction cs generalizing m ts with
  | nil => simp [Reads, Mode.read]
  | cons c cs ih =>
    rw [List.cons_append, cons_iff]
    simp only [ih, cons_iff]
    constructor
    · rintro ⟨us, _, m', hc, ⟨vs, ws, m₁, hcs, hds, rfl⟩, rfl⟩
      exact ⟨us ++ vs, ws, m₁, ⟨us, vs, m', hc, hcs, rfl⟩, hds, (List.append_assoc _ _ _).symm⟩
    · rintro ⟨_, ws, m₁, ⟨us, vs, m', hc, hcs, rfl⟩, hds, rfl⟩
      exact ⟨us, vs ++ ws, m', hc, ⟨vs, ws, m₁, hcs, hds, rfl⟩, List.append_assoc _ _ _⟩

protected theorem append (h : Reads m cs ts m₁) (h' : Reads m₁ ds us m₂) :
    Reads m (cs ++ ds) (ts ++ us) m₂ :=
  append_iff.mpr ⟨ts, us, m₁, h, h', rfl⟩

/-- A text is read in one way. -/
theorem unique (h : Reads m cs ts m₁) (h' : Reads m cs us m₂) : ts = us ∧ m₁ = m₂ := by
  have same := h.symm.trans h'
  simpa using same

end Reads

variable {w cs ds : List Char} {c : Char} {ts us : List Token} {m : Mode}

/-! ### Words -/

/-- A word goes on through the characters of words. -/
theorem reads_word_rest (hw : w.all isWord = true) : Reads (.word cs) w [] (.word (cs ++ w)) := by
  induction w generalizing cs with
  | nil =>
    rw [List.append_nil]
    exact .nil _
  | cons c w ih =>
    obtain ⟨hc, hw⟩ := Bool.and_eq_true_iff.mp hw
    have step : (Mode.word cs).step c = some ([], .word (cs ++ [c])) := by
      rw [Mode.step, if_pos hc]
    have rest : Reads (.word (cs ++ [c])) w [] (.word (cs ++ [c] ++ w)) := ih hw
    rw [List.append_assoc, List.singleton_append] at rest
    exact Reads.cons_iff.mpr ⟨[], [], _, step, rest, rfl⟩

/-- A word is an identifier when the text does not go on with it. -/
theorem reads_word {s : String} (hne : s.toList ≠ []) (hw : s.toList.all isWord = true)
    (hc : isWord c = false) (ho : opened c = some (ts, m)) :
    Reads .between (s.toList ++ [c]) (.id s :: ts) m := by
  obtain ⟨d, w, heq⟩ := List.exists_cons_of_ne_nil hne
  rw [heq] at hw
  obtain ⟨hd, hw⟩ := Bool.and_eq_true_iff.mp hw
  have first : Mode.between.step d = some ([], .word [d]) := by
    rw [Mode.step, opened, if_pos hd]
  have word : Reads .between s.toList [] (.word s.toList) := by
    rw [heq]
    exact Reads.cons_iff.mpr ⟨[], [], _, first, reads_word_rest hw, rfl⟩
  have last : (Mode.word s.toList).step c = some (.id s :: ts, m) := by
    rw [Mode.step, if_neg (Bool.not_eq_true _ ▸ hc), ho, String.ofList_toList]
    rfl
  have stop : Reads (.word s.toList) [c] (.id s :: ts) m :=
    Reads.cons_iff.mpr ⟨_, [], m, last, .nil m, (List.append_nil _).symm⟩
  exact word.append stop

/-! ### Quoted texts -/

/-- Where the reader is between quotes when it has read some text: a backslash at the end may still
belong to a quote. -/
def Mode.inside (cs : List Char) : Mode :=
  if cs.getLast? = some '\\' then escape cs.dropLast else quoted cs

theorem inside_concat_backslash : Mode.inside (cs ++ ['\\']) = .escape cs := by
  simp [Mode.inside]

theorem inside_concat_of_ne (hc : c ≠ '\\') : Mode.inside (cs ++ [c]) = .quoted (cs ++ [c]) := by
  simp [Mode.inside, hc]

/-- Between quotes all characters but a quote are read as they are. -/
theorem step_inside (hc : c ≠ '"') (cs : List Char) :
    (Mode.inside cs).step c = some ([], .inside (cs ++ [c])) := by
  by_cases hb : c = '\\'
  · subst hb
    rw [inside_concat_backslash]
    unfold Mode.inside
    split
    · next h => simp [Mode.step, List.dropLast_append_getLast? _ h]
    · simp [Mode.step]
  · rw [inside_concat_of_ne hb]
    unfold Mode.inside
    split
    · next h =>
      have whole := List.dropLast_append_getLast? _ h
      rw [Mode.step, if_neg hc, if_neg hb, ← List.singleton_append, ← List.append_assoc, whole]
    · rw [Mode.step, if_neg hc, if_neg hb]

/-- Every character is read back from its quoted form. -/
theorem reads_quote (cs : List Char) (c : Char) :
    Reads (.inside cs) (if c = '"' then ['\\', '"'] else [c]) [] (.inside (cs ++ [c])) := by
  split
  · next hc =>
    subst hc
    have backslash : (Mode.inside cs).step '\\' = some ([], .escape cs) := by
      rw [step_inside (by decide), inside_concat_backslash]
    have quote : (Mode.escape cs).step '"' = some ([], .inside (cs ++ ['"'])) := by
      rw [inside_concat_of_ne (by decide)]
      rfl
    exact Reads.cons_iff.mpr
      ⟨[], [], _, backslash, Reads.cons_iff.mpr ⟨[], [], _, quote, .nil _, rfl⟩, rfl⟩
  · next hc => exact Reads.cons_iff.mpr ⟨[], [], _, step_inside hc cs, .nil _, rfl⟩

/-- A text is read back from its quoted form. -/
theorem reads_escaped (s : String) :
    Reads (.quoted []) (escaped s).toList [] (.inside s.toList) := by
  have rest (cs ds : List Char) : Reads (.inside ds)
      (cs.flatMap fun c => if c = '"' then ['\\', '"'] else [c]) [] (.inside (ds ++ cs)) := by
    induction cs generalizing ds with
    | nil =>
      rw [List.append_nil]
      exact .nil _
    | cons c cs ih =>
      have h := (reads_quote ds c).append (ih (ds ++ [c]))
      rwa [List.append_assoc, List.singleton_append] at h
  rw [escaped, String.toList_ofList]
  exact rest s.toList []

/-- A character between quotes completes the text, or adds to what has been read of it. -/
private theorem step_between_quotes {p : Mode} (hp : p = .quoted cs ∨ p = .escape cs)
    (h : p.step c = some (ts, m)) :
    ts = [.id (String.ofList cs)] ∨
      ts = [] ∧ ∃ ds, m = .quoted (cs ++ ds) ∨ m = .escape (cs ++ ds) := by
  obtain rfl | rfl := hp
  all_goals
    rw [Mode.step] at h
    split at h
    · cases h
      first
      | exact .inl rfl
      | exact .inr ⟨rfl, _, .inl rfl⟩
    · split at h
      · cases h
        first
        | exact .inr ⟨rfl, _, .inr rfl⟩
        | exact .inr ⟨rfl, [], .inr (by rw [List.append_nil])⟩
      · cases h
        exact .inr ⟨rfl, _, .inl rfl⟩

/-- The text between quotes begins with what has been read of it. -/
theorem prefix_of_reads {w : String} {p : Mode} (hp : p = .quoted cs ∨ p = .escape cs)
    (h : Reads p ds (.id w :: ts) m) : cs <+: w.toList := by
  induction ds generalizing p cs with
  | nil => cases h
  | cons c ds ih =>
    obtain ⟨us, vs, m₁, hstep, hrest, heq⟩ := Reads.cons_iff.mp h
    obtain rfl | ⟨rfl, es, hm⟩ := step_between_quotes hp hstep
    · injection heq with hw
      injection hw with hw
      exact ⟨[], by rw [List.append_nil, hw, String.toList_ofList]⟩
    · rw [List.nil_append] at heq
      exact (List.prefix_append cs es).trans (ih hm (heq ▸ hrest))

/-- A text that ends with a backslash is not read back between quotes, whatever follows. -/
theorem ne_of_reads_escaped {s w : String} (hs : s.toList.getLast? = some '\\')
    (h : Reads (.quoted []) ((escaped s).toList ++ '"' :: ds) (.id w :: ts) m) : w ≠ s := by
  rintro rfl
  obtain ⟨us, vs, m₁, hw, hrest, heq⟩ := Reads.append_iff.mp h
  obtain ⟨rfl, rfl⟩ := hw.unique (reads_escaped w)
  rw [Mode.inside, if_pos hs] at hrest
  obtain ⟨us, ws, m₂, hquote, hrest, rfl⟩ := Reads.cons_iff.mp hrest
  -- the backslash takes the quote that should have ended the text
  cases hquote
  rw [List.nil_append, List.nil_append] at heq
  obtain ⟨es, hes⟩ := prefix_of_reads (.inl rfl) (heq ▸ hrest)
  have same := hes.trans (List.dropLast_append_getLast? _ hs).symm
  rw [List.append_assoc, List.append_cancel_left_eq] at same
  cases same

end Combinatory.Dot
