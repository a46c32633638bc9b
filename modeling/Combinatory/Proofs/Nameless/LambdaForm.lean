import Combinatory.Proofs.Ending.LambdaForm
import Combinatory.Proofs.Nameless.Lambda

/-!
# Light forms of skeletons

The search for lighter forms is defined here once more, on skeletons: it lists its forms, and what a
visitor would be shown one by one comes to the search around it as a list. Of a bare skeleton there
are forms lighter and lighter (`makes_forms`), and more and more steps are spent on them
(`forms_pairwise_steps`). Without a ceiling they begin with one that weighs as much as the skeleton
itself, and is the skeleton where its applications can stand; and so they do below a ceiling that is
high enough, where they are the same (`forms_of_high`). An application is no heavier, in the end,
than the lightest front with any form of the last argument that is found below the ceiling of the
front (`weight_le_of_halves`).
-/

namespace Combinatory

/-! ### Ceilings -/

namespace Ceiling

/-- Whether a weight is below a ceiling. -/
def Allows : Ceiling → Nat → Prop
  | infinite, _ => True
  | below n, w => (w : Int) < n
  | improper _, _ => False

instance : (c : Ceiling) → (w : Nat) → Decidable (c.Allows w)
  | infinite, _ => .isTrue trivial
  | below n, w => inferInstanceAs (Decidable ((w : Int) < n))
  | improper _, _ => .isFalse id

/-- The ceiling for a part of a term. -/
def lower : Ceiling → Ceiling
  | below n => below (n - 1)
  | c => c

variable {c : Ceiling}

theorem admits_eq (hc : c.Proper) (w : Nat) : c.admits w = .ok (decide (c.Allows w)) := by
  cases c with
  | improper _ => exact hc.elim
  | _ => rfl

theorem lowered_eq (hc : c.Proper) : c.lowered = .ok c.lower := by
  cases c with
  | improper _ => exact hc.elim
  | _ => rfl

theorem Proper.lower (hc : c.Proper) : c.lower.Proper := by
  cases c with
  | improper _ => exact hc.elim
  | _ => trivial

/-- What is light enough for a part is so for a whole that weighs one more. -/
@[simp] theorem allows_lower {w : Nat} : c.lower.Allows w ↔ c.Allows (w + 1) := by
  cases c with
  | below n =>
    simp only [lower, Allows]
    omega
  | _ => rfl

/-- What is lighter is allowed too. -/
theorem Allows.mono {w w' : Nat} (h : c.Allows w') (hw : w ≤ w') : c.Allows w := by
  cases c with
  | below n =>
    simp only [Allows] at h ⊢
    omega
  | _ => exact h

@[simp] theorem allows_below {n w : Nat} : (below n).Allows w ↔ w < n := by
  simp [Allows]

@[simp] theorem allows_infinite (w : Nat) : infinite.Allows w := trivial

end Ceiling

/-! ### The search on skeletons -/

namespace Skeleton

/-- A form of a skeleton, the steps spent on it, and where it was found. -/
structure Form where
  skeleton : Skeleton
  steps : Nat
  origin : Origin

/-- Where the search below a skeleton stands: the weight to beat, the lightest front found for an
application, the steps spent on the forms noted, and these forms. -/
structure Best where
  ceiling : Ceiling
  front : Skeleton
  steps : Nat
  found : List Form

namespace Best

/-- Notes a form if it beats the best so far. Its steps are counted on from those spent before. -/
def improve (b : Best) (f : Form) (front : Skeleton) : Best :=
  if b.ceiling.Allows f.skeleton.weight then
    ⟨.below f.skeleton.weight, front, b.steps + f.steps,
      b.found ++ [⟨f.skeleton, b.steps + f.steps, f.origin⟩]⟩
  else b

/-- Tries a form of the front of an application. -/
def tryFront (last : Skeleton) (b : Best) (f : Form) : Except Failure Best := do
  let y ← f.skeleton.apply [last]
  return b.improve ⟨y, f.steps, .inApplication f.origin⟩ f.skeleton

/-- Tries a form of the last argument of an application. -/
def tryLast (b : Best) (f : Form) : Except Failure Best := do
  let y ← b.front.apply [f.skeleton]
  return b.improve ⟨y, f.steps, .inApplication f.origin⟩ b.front

/-- Tries a form of the body of a lambda. -/
def tryBody (b : Best) (f : Form) : Except Failure Best := do
  return b.improve ⟨lam f.skeleton, f.steps, .inLambda f.origin⟩ b.front

/-- Tries the canonical form of the whole. -/
def tryWhole (b : Best) (found : Finding) : Best :=
  match found.canonical with
  | some y => b.improve ⟨y, found.steps, .canonical⟩ b.front
  | none => b

end Best

/-- The forms of a skeleton below a ceiling, each lighter than the one before, from both halves of
an application, the front first, or from the body of a lambda, and last from the whole. -/
def forms (limits : Budget) : Nat → Skeleton → Ceiling → Except Failure (List Form)
  | 0, _, _ => throw .tooDeep
  | depth + 1, x, c => do
    if x.weight = 0 then return if c.Allows 0 then [⟨x, 0, .freeVariables⟩] else []
    let best ← match x with
      | app h as => do
        let (front, last) ← split h as
        let fronts ← forms limits depth front c.lower
        let best ← fronts.foldlM (Best.tryFront last) ⟨c, front, 0, []⟩
        let lasts ← forms limits depth last best.ceiling.lower
        lasts.foldlM Best.tryLast best
      | lam b => do
        let bodies ← forms limits depth b c.lower
        bodies.foldlM Best.tryBody ⟨c, b, 0, []⟩
      | _ => pure ⟨c, x, 0, []⟩
    return (best.tryWhole (← canonicalize limits x.size x)).found

/-! ### Lighter and lighter -/

/-- The ceiling after some forms, each of which was allowed. -/
def ceilingAfter (c : Ceiling) (l : List Form) : Ceiling :=
  l.foldl (fun _ f => .below f.skeleton.weight) c

/-- Each form is allowed by the ceiling after those before it. -/
def Descends (c : Ceiling) : List Form → Prop
  | [] => True
  | f :: l => c.Allows f.skeleton.weight ∧ Descends (.below f.skeleton.weight) l

variable {c : Ceiling} {f g : Form} {l : List Form}

theorem ceilingAfter_concat (c : Ceiling) (l : List Form) (f : Form) :
    ceilingAfter c (l ++ [f]) = .below f.skeleton.weight := by
  simp [ceilingAfter]

theorem descends_concat :
    Descends c (l ++ [f]) ↔ Descends c l ∧ (ceilingAfter c l).Allows f.skeleton.weight := by
  induction l generalizing c with
  | nil => simp [Descends, ceilingAfter]
  | cons g l ih =>
    simp only [List.cons_append, Descends, ih, and_assoc, ceilingAfter, List.foldl_cons]

/-- All forms are allowed from the start. -/
theorem Descends.allows (h : Descends c l) (hf : f ∈ l) : c.Allows f.skeleton.weight := by
  induction l generalizing c with
  | nil => cases hf
  | cons g l ih =>
    rcases List.mem_cons.mp hf with rfl | hf
    · exact h.1
    · exact h.1.mono (Nat.le_of_lt (Ceiling.allows_below.mp (ih h.2 hf)))

/-- Every form is lighter than all before it. -/
theorem Descends.pairwise (h : Descends c l) :
    l.Pairwise fun f g => g.skeleton.weight < f.skeleton.weight := by
  induction l generalizing c with
  | nil => exact .nil
  | cons f l ih =>
    exact .cons (fun g hg => Ceiling.allows_below.mp (h.2.allows hg)) (ih h.2)

/-- There are no more forms than weights below a ceiling. -/
theorem Descends.length_le {n : Nat} (h : Descends (.below n) l) : l.length ≤ n := by
  induction l generalizing n with
  | nil => exact Nat.zero_le n
  | cons f l ih =>
    have lighter := Ceiling.allows_below.mp h.1
    exact Nat.succ_le_of_lt (Nat.lt_of_le_of_lt (ih h.2) lighter)

/-- The last form is the lightest. -/
theorem Descends.le_of_mem (h : Descends c (l ++ [f])) (hg : g ∈ l ++ [f]) :
    f.skeleton.weight ≤ g.skeleton.weight := by
  induction l generalizing c with
  | nil => rw [List.mem_singleton.mp hg]
  | cons g' l ih =>
    rcases List.mem_cons.mp hg with rfl | hg
    · exact Nat.le_of_lt (Ceiling.allows_below.mp (h.2.allows (by simp)))
    · exact ih h.2 hg

/-! ### Trying forms -/

namespace Best

variable {b : Best} {x y z : Skeleton} {found : Finding} {w : Nat}

/-- Where a search below a skeleton stands: the forms noted are bare, each lighter than the one
before, and the last is the one to beat. -/
structure Sound (c : Ceiling) (b : Best) : Prop where
  ceiling : b.ceiling = ceilingAfter c b.found
  descends : Descends c b.found
  bare : ∀ f ∈ b.found, f.skeleton.Bare
  front : b.front.Bare

theorem Sound.start (c : Ceiling) (hy : y.Bare) (n : Nat) : Sound c ⟨c, y, n, []⟩ :=
  ⟨rfl, trivial, nofun, hy⟩

theorem Sound.improve (hb : b.Sound c) (hf : f.skeleton.Bare) (hz : z.Bare) :
    (b.improve f z).Sound c := by
  unfold Best.improve
  split
  · next hallows =>
    rw [hb.ceiling] at hallows
    refine ⟨by rw [ceilingAfter_concat], descends_concat.mpr ⟨hb.descends, hallows⟩, ?_, hz⟩
    intro g hg
    rcases List.mem_append.mp hg with hg | hg
    · exact hb.bare g hg
    · rw [List.mem_singleton.mp hg]
      exact hf
  · exact hb

/-- What has been tried is not to be beaten by as heavy a form. -/
theorem not_allows_improve (b : Best) (f : Form) (z : Skeleton) :
    ¬ (b.improve f z).ceiling.Allows f.skeleton.weight := by
  unfold improve
  split
  · simp
  · next h => exact h

theorem Sound.tryWhole (hb : b.Sound c) (hfound : BareAny found.canonical) :
    (b.tryWhole found).Sound c := by
  unfold Best.tryWhole
  split
  · next y hy => exact hb.improve (hfound y hy) hb.front
  · exact hb

/-- A form of the front is tried with the last argument. -/
theorem makes_tryFront (hy : y.Bare) (hf : f.skeleton.Bare) (b : Best) :
    Makes (b.tryFront y f) fun b' => ∃ z : Skeleton, z.Bare ∧
      z.weight = f.skeleton.weight + y.weight ∧
      b' = b.improve ⟨z, f.steps, .inApplication f.origin⟩ f.skeleton := by
  unfold tryFront
  apply (makes_apply hf (.cons hy .nil)).bind
  rintro z ⟨hz, hweight, -, -⟩
  exact .pure ⟨z, hz, hweight, rfl⟩

/-- A form of the last argument is tried with the lightest front. -/
theorem makes_tryLast (hb : b.front.Bare) (hf : f.skeleton.Bare) :
    Makes (b.tryLast f) fun b' => ∃ z : Skeleton, z.Bare ∧
      z.weight = b.front.weight + f.skeleton.weight ∧
      b' = b.improve ⟨z, f.steps, .inApplication f.origin⟩ b.front := by
  unfold tryLast
  apply (makes_apply hb (.cons hf .nil)).bind
  rintro z ⟨hz, hweight, -, -⟩
  exact .pure ⟨z, hz, hweight, rfl⟩

/-- Whether the forms noted were spent more and more steps on, and none more than all in all. -/
structure Paid (b : Best) : Prop where
  ascends : b.found.Pairwise fun f g => f.steps ≤ g.steps
  covers : ∀ f ∈ b.found, f.steps ≤ b.steps

theorem Paid.start (c : Ceiling) (y : Skeleton) : Paid ⟨c, y, 0, []⟩ := ⟨.nil, nofun⟩

theorem Paid.improve (hb : b.Paid) (f : Form) (z : Skeleton) : (b.improve f z).Paid := by
  unfold Best.improve
  split
  · refine ⟨List.pairwise_append.mpr ⟨hb.ascends, List.pairwise_singleton _ _, ?_⟩, ?_⟩
    · intro g hg f' hf'
      rw [List.mem_singleton.mp hf']
      exact Nat.le_add_right_of_le (hb.covers g hg)
    · intro g hg
      rcases List.mem_append.mp hg with hg | hg
      · exact Nat.le_add_right_of_le (hb.covers g hg)
      · rw [List.mem_singleton.mp hg]
  · exact hb

/-- Whether a search below a skeleton goes on from where another one stands: nothing is forgotten,
the weight to beat is no larger, and no steps are taken back. -/
structure From (b b' : Best) : Prop where
  head : ∀ g, b.found.head? = some g → b'.found.head? = some g
  ceiling : ∀ w, b'.ceiling.Allows w → b.ceiling.Allows w
  paid : b.Paid → b'.Paid

theorem From.refl (b : Best) : From b b := ⟨fun _ h => h, fun _ h => h, id⟩

theorem From.trans {b₁ b₂ : Best} (h : From b b₁) (h' : From b₁ b₂) : From b b₂ :=
  ⟨fun g hg => h'.head g (h.head g hg), fun w hw => h.ceiling w (h'.ceiling w hw),
    fun hb => h'.paid (h.paid hb)⟩

theorem from_improve (b : Best) (f : Form) (z : Skeleton) : From b (b.improve f z) := by
  refine ⟨?_, ?_, fun hb => hb.improve f z⟩
  · intro g hg
    unfold improve
    split
    · rw [List.head?_append, hg]
      rfl
    · exact hg
  · intro w hw
    unfold improve at hw
    split at hw
    · next hallows => exact hallows.mono (Nat.le_of_lt (Ceiling.allows_below.mp hw))
    · exact hw

theorem from_tryFront {b b' : Best} (h : b.tryFront y f = .ok b') : From b b' := by
  obtain ⟨z, -, h⟩ := exists_of_bind_ok h
  cases h
  exact from_improve b _ _

theorem from_tryLast {b b' : Best} (h : b.tryLast f = .ok b') : From b b' := by
  obtain ⟨z, -, h⟩ := exists_of_bind_ok h
  cases h
  exact from_improve b _ _

theorem from_tryBody {b b' : Best} (h : b.tryBody f = .ok b') : From b b' := by
  cases h
  exact from_improve b _ _

theorem from_tryWhole (b : Best) (found : Finding) : From b (b.tryWhole found) := by
  unfold tryWhole
  split
  · exact from_improve b _ _
  · exact .refl b

theorem from_foldlM {attempt : Best → Form → Except Failure Best}
    (h : ∀ b f b', attempt b f = .ok b' → From b b') {b' : Best}
    (hr : l.foldlM attempt b = .ok b') : From b b' := by
  induction l generalizing b with
  | nil =>
    cases hr
    exact .refl _
  | cons f l ih =>
    rw [List.foldlM_cons] at hr
    obtain ⟨b₁, h₁, hr⟩ := exists_of_bind_ok hr
    exact (h b f b₁ h₁).trans (ih hr)

/-- If the first form tried is noted, the ceiling does not matter any more. -/
private theorem foldlM_of_first {attempt : Best → Form → Except Failure Best}
    (h : ∀ b f b', attempt b f = .ok b' → From b b') {b' : Best}
    (hr : (f :: l).foldlM attempt ⟨c, x, 0, []⟩ = .ok b')
    (hg : ∀ c, attempt ⟨c, x, 0, []⟩ f = .ok (improve ⟨c, x, 0, []⟩ g z))
    (hc : c.Allows g.skeleton.weight) :
    (f :: l).foldlM attempt ⟨.infinite, x, 0, []⟩ = .ok b' ∧
      ∃ f', b'.found.head? = some f' ∧ f'.skeleton = g.skeleton := by
  have same : improve ⟨.infinite, x, 0, []⟩ g z = improve ⟨c, x, 0, []⟩ g z := by
    rw [improve, improve, if_pos hc, if_pos (Ceiling.allows_infinite _)]
  have noted : (improve ⟨c, x, 0, []⟩ g z).found.head? =
      some ⟨g.skeleton, 0 + g.steps, g.origin⟩ := by
    rw [improve, if_pos hc]
    rfl
  rw [List.foldlM_cons, hg] at hr ⊢
  rw [same]
  exact ⟨hr, _, (from_foldlM h hr).head _ noted, rfl⟩

theorem fronts_of_first (hy : y.Bare) (hf : f.skeleton.Bare) {b' : Best}
    (hr : (f :: l).foldlM (tryFront y) ⟨c, x, 0, []⟩ = .ok b')
    (hc : c.Allows (f.skeleton.weight + y.weight)) :
    (f :: l).foldlM (tryFront y) ⟨.infinite, x, 0, []⟩ = .ok b' ∧
      ∃ g, b'.found.head? = some g ∧ f.skeleton.apply [y] = .ok g.skeleton ∧
        g.skeleton.weight = f.skeleton.weight + y.weight := by
  obtain ⟨z, happly, -, hz, -⟩ := makes_apply hf (.cons hy .nil)
  have weighs : z.weight = f.skeleton.weight + y.weight := hz
  have first (c : Ceiling) : tryFront y ⟨c, x, 0, []⟩ f =
      .ok (improve ⟨c, x, 0, []⟩ ⟨z, f.steps, .inApplication f.origin⟩ f.skeleton) := by
    rw [tryFront, happly]
    rfl
  obtain ⟨tried, g, hg, hskeleton⟩ :=
    foldlM_of_first (fun _ _ _ => from_tryFront) hr first (weighs ▸ hc)
  exact ⟨tried, g, hg, by rw [happly, hskeleton], by rw [hskeleton, weighs]⟩

theorem bodies_of_first {b' : Best} (hr : (f :: l).foldlM tryBody ⟨c, x, 0, []⟩ = .ok b')
    (hc : c.Allows (lam f.skeleton).weight) :
    (f :: l).foldlM tryBody ⟨.infinite, x, 0, []⟩ = .ok b' ∧
      ∃ g, b'.found.head? = some g ∧ g.skeleton = lam f.skeleton :=
  foldlM_of_first (g := ⟨lam f.skeleton, f.steps, .inLambda f.origin⟩)
    (fun _ _ _ => from_tryBody) hr (fun _ => rfl) hc

/-- What has been tried of the front is not to be beaten again, and if anything was noted, the last
front that was is one of the forms tried. -/
theorem makes_fronts (hb : b.Sound c) (hy : y.Bare) (hl : ∀ f ∈ l, f.skeleton.Bare) :
    Makes (l.foldlM (tryFront y) b) fun b' => b'.Sound c ∧
      (∀ f ∈ l, ¬ b'.ceiling.Allows (f.skeleton.weight + y.weight)) ∧
      (b' = b ∨ ∃ f ∈ l, b'.front = f.skeleton ∧
        b'.ceiling = .below (f.skeleton.weight + y.weight : Nat)) := by
  apply Makes.foldlM
  · exact ⟨hb, nofun, .inl rfl⟩
  rintro l₀ f b₁ hf ⟨sound, beaten, last⟩
  apply (makes_tryFront hy (hl f hf) b₁).imp
  rintro _ ⟨z, hz, hweight, rfl⟩
  have next := from_improve b₁ ⟨z, f.steps, .inApplication f.origin⟩ f.skeleton
  refine ⟨sound.improve hz (hl f hf), fun g hg hallows => ?_, ?_⟩
  · rcases List.mem_append.mp hg with hg | hg
    · exact beaten g hg (next.ceiling _ hallows)
    · rw [List.mem_singleton.mp hg, ← hweight] at hallows
      exact not_allows_improve _ _ _ hallows
  · unfold improve
    split
    · exact .inr ⟨f, by simp, rfl, by rw [hweight]⟩
    · exact last.imp id fun ⟨g, hg, h⟩ => ⟨g, List.mem_append_left _ hg, h⟩

/-- What has been tried of the last argument is not to be beaten again. The front stays as it is. -/
theorem makes_lasts (hb : b.Sound c) (hl : ∀ f ∈ l, f.skeleton.Bare) :
    Makes (l.foldlM tryLast b) fun b' => b'.Sound c ∧ b'.front = b.front ∧
      ∀ f ∈ l, ¬ b'.ceiling.Allows (b.front.weight + f.skeleton.weight) := by
  apply Makes.foldlM
  · exact ⟨hb, rfl, nofun⟩
  rintro l₀ f b₁ hf ⟨sound, front, beaten⟩
  apply (makes_tryLast sound.front (hl f hf)).imp
  rintro _ ⟨z, hz, hweight, rfl⟩
  have next := from_improve b₁ ⟨z, f.steps, .inApplication f.origin⟩ b₁.front
  refine ⟨sound.improve hz sound.front, ?_, fun g hg hallows => ?_⟩
  · unfold improve
    split <;> exact front
  · rcases List.mem_append.mp hg with hg | hg
    · exact beaten g hg (next.ceiling _ hallows)
    · rw [List.mem_singleton.mp hg, ← front, ← hweight] at hallows
      exact not_allows_improve _ _ _ hallows

theorem makes_bodies (hb : b.Sound c) (hl : ∀ f ∈ l, f.skeleton.Bare) :
    Makes (l.foldlM tryBody b) (Sound c) := by
  apply Makes.foldlM (I := fun _ => Sound c) hb
  intro l₀ f b₁ hf sound
  have closed : (lam f.skeleton).Bare := hl f hf
  exact .pure (sound.improve closed sound.front)

end Best

/-! ### The forms of a skeleton -/

variable {limits : Budget} {x : Skeleton}

/-- The forms of a bare skeleton are bare, each lighter than the one before. -/
theorem makes_forms (hl : limits.Numeric) (depth : Nat) (hx : x.Bare) (hsize : x.size ≤ depth)
    (c : Ceiling) :
    Makes (x.forms limits depth c) fun l => Descends c l ∧ ∀ f ∈ l, f.skeleton.Bare := by
  induction depth generalizing x c with
  | zero => exact absurd hsize (Nat.not_le_of_lt x.size_pos)
  | succ depth ih =>
    unfold forms
    by_cases hw : x.weight = 0
    · rw [if_pos hw]
      refine .pure ?_
      split
      · next hallows =>
        refine ⟨⟨hw ▸ hallows, trivial⟩, fun f hf => ?_⟩
        rw [List.mem_singleton.mp hf]
        exact hx
      · exact ⟨trivial, nofun⟩
    · rw [if_neg hw]
      have whole {b : Best} (hb : b.Sound c) : Makes (do
          return (b.tryWhole (← canonicalize limits x.size x)).found) fun l =>
            Descends c l ∧ ∀ f ∈ l, f.skeleton.Bare := by
        apply (makes_canonicalize hl hx (Nat.le_refl _)).bind
        intro found hfound
        exact .pure ⟨(hb.tryWhole hfound).descends, (hb.tryWhole hfound).bare⟩
      cases x with
      | app h as =>
        dsimp only
        apply (makes_split hx).bind
        rintro ⟨y, z⟩ ⟨hy, hz, -, -, hfront, hlast⟩
        dsimp only at hy hz hfront hlast ⊢
        apply (ih hy (by omega) c.lower).bind
        rintro fronts ⟨-, hfronts⟩
        apply (Best.makes_fronts (.start c hy 0) hz hfronts).bind
        rintro b₁ ⟨sound, -⟩
        apply (ih hz (by omega) b₁.ceiling.lower).bind
        rintro lasts ⟨-, hlasts⟩
        apply (Best.makes_lasts sound hlasts).bind
        rintro b₂ ⟨sound, -⟩
        exact whole sound
      | lam b =>
        rw [size] at hsize
        have hb : b.Bare := hx
        dsimp only
        apply (ih hb (by omega) c.lower).bind
        rintro bodies ⟨-, hbodies⟩
        apply (Best.makes_bodies (.start c hb 0) hbodies).bind
        intro b₁ sound
        exact whole sound
      | var p => exact whole (.start c hx 0)
      | native k => exact hx.elim
      | foreign y => exact hx.elim
      | named info d => exact hx.elim

/-- How the forms of a bare skeleton come about: it has only variables, or the forms of both halves
of an application are tried, or those of the body of a lambda, and last the whole. -/
inductive Explores (limits : Budget) (depth : Nat) (c : Ceiling) : Skeleton → List Form → Prop where
  | free {x : Skeleton} (light : x.weight = 0) :
    Explores limits depth c x (if c.Allows 0 then [⟨x, 0, .freeVariables⟩] else [])
  | halves {h front last : Skeleton} {as : List Skeleton} {fronts lasts : List Form}
    {b₁ b₂ : Best} {found : Finding} (heavy : (app h as).weight ≠ 0)
    (hsplit : split h as = .ok (front, last))
    (hfronts : forms limits depth front c.lower = .ok fronts)
    (tried₁ : fronts.foldlM (Best.tryFront last) ⟨c, front, 0, []⟩ = .ok b₁)
    (hlasts : forms limits depth last b₁.ceiling.lower = .ok lasts)
    (tried₂ : lasts.foldlM Best.tryLast b₁ = .ok b₂)
    (whole : canonicalize limits (app h as).size (app h as) = .ok found) :
    Explores limits depth c (app h as) (b₂.tryWhole found).found
  | body {x : Skeleton} {bodies : List Form} {b : Best} {found : Finding}
    (hbodies : forms limits depth x c.lower = .ok bodies)
    (tried : bodies.foldlM Best.tryBody ⟨c, x, 0, []⟩ = .ok b)
    (whole : canonicalize limits (lam x).size (lam x) = .ok found) :
    Explores limits depth c (lam x) (b.tryWhole found).found

theorem explores_of_forms {depth : Nat} (hx : x.Bare)
    (h : x.forms limits (depth + 1) c = .ok l) : Explores limits depth c x l := by
  unfold forms at h
  by_cases hw : x.weight = 0
  · rw [if_pos hw] at h
    cases h
    exact .free hw
  · rw [if_neg hw] at h
    cases x with
    | app g as =>
      obtain ⟨⟨front, last⟩, hsplit, h⟩ := exists_of_bind_ok h
      obtain ⟨fronts, hfronts, h⟩ := exists_of_bind_ok h
      obtain ⟨b₁, tried₁, h⟩ := exists_of_bind_ok h
      obtain ⟨lasts, hlasts, h⟩ := exists_of_bind_ok h
      obtain ⟨b₂, tried₂, h⟩ := exists_of_bind_ok h
      obtain ⟨found, whole, h⟩ := exists_of_bind_ok h
      cases h
      exact .halves hw hsplit hfronts tried₁ hlasts tried₂ whole
    | lam b =>
      obtain ⟨bodies, hbodies, h⟩ := exists_of_bind_ok h
      obtain ⟨b, tried, h⟩ := exists_of_bind_ok h
      obtain ⟨found, whole, h⟩ := exists_of_bind_ok h
      cases h
      exact .body hbodies tried whole
    | var p => exact absurd (by simp [weight]) hw
    | native k => exact hx.elim
    | foreign y => exact hx.elim
    | named info d => exact hx.elim

theorem Explores.forms_eq {depth : Nat} (h : Explores limits depth c x l) :
    x.forms limits (depth + 1) c = .ok l := by
  unfold forms
  cases h with
  | free light =>
    rw [if_pos light]
    rfl
  | halves heavy hsplit hfronts tried₁ hlasts tried₂ whole =>
    rw [if_neg heavy]
    simp only [hsplit, hfronts, tried₁, hlasts, tried₂, whole, bind, Except.bind]
    rfl
  | body hbodies tried whole =>
    rw [if_neg (by simp [weight])]
    simp only [hbodies, tried, whole, bind, Except.bind]
    rfl

/-- The forms of a bare skeleton were spent more and more steps on. -/
theorem forms_pairwise_steps {depth : Nat} (hx : x.Bare)
    (h : x.forms limits (depth + 1) c = .ok l) : l.Pairwise fun f g => f.steps ≤ g.steps := by
  cases explores_of_forms hx h with
  | free light => split <;> simp
  | halves _ _ _ tried₁ _ tried₂ _ =>
    have paid := (Best.from_foldlM (fun _ _ _ => Best.from_tryFront) tried₁).paid (.start _ _)
    have paid := (Best.from_foldlM (fun _ _ _ => Best.from_tryLast) tried₂).paid paid
    exact ((Best.from_tryWhole _ _).paid paid).ascends
  | body _ tried _ =>
    have paid := (Best.from_foldlM (fun _ _ _ => Best.from_tryBody) tried).paid (.start _ _)
    exact ((Best.from_tryWhole _ _).paid paid).ascends

/-! ### High ceilings -/

/-- A ceiling is high above a skeleton if it allows its weight even after it was lowered at all
applications on the way down the fronts. -/
abbrev High (c : Ceiling) (x : Skeleton) : Prop := c.Allows (x.weight + x.spine)

/-- Below a high ceiling the forms begin with one that weighs as much as the skeleton itself, and is
the skeleton if its applications can stand as they are. The forms are as if there were no
ceiling. -/
theorem forms_of_high (hl : limits.Numeric) (depth : Nat) (hx : x.Bare) (hsize : x.size ≤ depth)
    (hc : High c x) (h : x.forms limits depth c = .ok l) :
    x.forms limits depth .infinite = .ok l ∧ ∃ f, l.head? = some f ∧
      f.skeleton.weight = x.weight ∧ (x.stands = true → f.skeleton = x) := by
  induction depth generalizing x c l with
  | zero => exact absurd hsize (Nat.not_le_of_lt x.size_pos)
  | succ depth ih =>
    cases explores_of_forms hx h with
    | free light =>
      have allowed : c.Allows 0 := hc.mono (Nat.zero_le _)
      rw [if_pos allowed]
      refine ⟨?_, _, rfl, rfl, fun _ => rfl⟩
      exact (Explores.free (c := .infinite) light).forms_eq
    | @halves _ front _ _ _ _ _ _ _ heavy hsplit hfronts tried₁ hlasts tried₂ whole =>
      obtain ⟨hy, hz, hweight, hspine, hfront, -⟩ := (makes_split hx).of_ok hsplit
      dsimp only at hy hz hweight hspine hfront
      have high : High c.lower front := Ceiling.allows_lower.mpr (hc.mono (by omega))
      obtain ⟨unbounded, f, hf, light, same⟩ := ih hy (by omega) high hfronts
      obtain ⟨rest, rfl⟩ := List.head?_eq_some_iff.mp hf
      have bare := ((makes_forms hl depth hy (by omega) _).of_ok hfronts).2 f List.mem_cons_self
      obtain ⟨tried, g, hg, applied, weighs⟩ :=
        Best.fronts_of_first hz bare tried₁ (hc.mono (by omega))
      have kept := (Best.from_foldlM (fun _ _ _ => Best.from_tryLast) tried₂).head g hg
      refine ⟨?_, g, (Best.from_tryWhole _ _).head g kept, by omega, fun stands => ?_⟩
      · exact (Explores.halves heavy hsplit unbounded tried hlasts tried₂ whole).forms_eq
      · obtain ⟨front, joined⟩ := stands_split hx stands hsplit
        rw [same front, joined] at applied
        exact (Except.ok.inj applied).symm
    | @body y _ _ _ hbodies tried whole =>
      rw [size] at hsize
      have hy : y.Bare := hx
      have lighter : y.weight + y.spine + 1 = (lam y).weight + (lam y).spine := by
        rw [weight, spine, Nat.add_right_comm]
      have high : High c.lower y := Ceiling.allows_lower.mpr (hc.mono (Nat.le_of_eq lighter))
      obtain ⟨unbounded, f, hf, light, same⟩ := ih hy (by omega) high hbodies
      obtain ⟨rest, rfl⟩ := List.head?_eq_some_iff.mp hf
      have weighs : (lam f.skeleton).weight = (lam y).weight := by rw [weight, weight, light]
      obtain ⟨tried, g, hg, hskeleton⟩ := Best.bodies_of_first tried (hc.mono (by omega))
      refine ⟨?_, g, (Best.from_tryWhole _ _).head g hg, by rw [hskeleton, weighs], ?_⟩
      · exact (Explores.body unbounded tried whole).forms_eq
      · intro stands
        rw [hskeleton, same stands]

/-- Without a ceiling there is a last form. -/
theorem exists_last_form (hl : limits.Numeric) {depth : Nat} (hx : x.Bare)
    (hsize : x.size ≤ depth) :
    ∃ l f, x.forms limits depth .infinite = .ok (l ++ [f]) := by
  obtain ⟨fs, hfs, -⟩ := makes_forms hl depth hx hsize .infinite
  have high : High .infinite x := trivial
  obtain ⟨-, first, hfirst, -, -⟩ := forms_of_high hl depth hx hsize high hfs
  obtain ⟨l, f, rfl⟩ := (List.eq_nil_or_concat' fs).resolve_left fun hnil => by
    rw [hnil] at hfirst
    cases hfirst
  exact ⟨l, f, hfs⟩

/-! ### The halves of an application -/

/-- The last form of an application is no heavier than the lightest front with the last argument,
and no heavier than that front with any form of the last argument below the ceiling of both. -/
private theorem weight_le_below (hl : limits.Numeric) {depth : Nat} {h front last : Skeleton}
    {as : List Skeleton} (hx : (app h as).Bare) (hsize : (app h as).size ≤ depth + 1)
    (hsplit : split h as = .ok (front, last)) {fronts : List Form} {F E : Form}
    (hfronts : front.forms limits depth .infinite = .ok (fronts ++ [F]))
    (hforms : (app h as).forms limits (depth + 1) .infinite = .ok (l ++ [E])) :
    E.skeleton.weight ≤ F.skeleton.weight + last.weight ∧
      ∀ lasts, last.forms limits depth
          (.below (F.skeleton.weight + last.weight - 1 : Int)) = .ok lasts →
        ∀ f ∈ lasts, E.skeleton.weight ≤ F.skeleton.weight + f.skeleton.weight := by
  generalize hes : l ++ [E] = es at hforms
  cases explores_of_forms hx hforms with
  | free light =>
    rw [if_pos (Ceiling.allows_infinite 0)] at hes
    obtain ⟨rfl, rfl⟩ := List.append_singleton_inj.mp (hes.trans (List.nil_append _).symm)
    dsimp only
    rw [light]
    exact ⟨Nat.zero_le _, fun _ _ _ _ => Nat.zero_le _⟩
  | @halves _ _ _ _ _ lasts b₁ b₂ found _ hsplit' hfronts' tried₁ hlasts tried₂ whole =>
    cases hsplit.symm.trans hsplit'
    cases hfronts.symm.trans hfronts'
    obtain ⟨hy, hz, -, -, hfront, hlast⟩ := (makes_split hx).of_ok hsplit
    dsimp only at hy hz hfront hlast
    obtain ⟨descends, bare⟩ := (makes_forms hl depth hy (by omega) _).of_ok hfronts
    obtain ⟨-, bare'⟩ := (makes_forms hl depth hz (by omega) _).of_ok hlasts
    obtain ⟨sound₁, beaten₁, tip⟩ := (Best.makes_fronts (.start _ hy 0) hz bare).of_ok tried₁
    obtain ⟨sound₂, hsame, beaten₂⟩ := (Best.makes_lasts sound₁ bare').of_ok tried₂
    -- the front kept is as light as the lightest, and the ceiling is the weight with it
    have beaten : ¬ b₁.ceiling.Allows (F.skeleton.weight + last.weight) := beaten₁ F (by simp)
    obtain ⟨f, hf, hkept, hceiling⟩ := tip.resolve_left fun hb => by
      rw [hb] at beaten
      exact beaten trivial
    have lightest : f.skeleton.weight = F.skeleton.weight := by
      have := descends.le_of_mem hf
      rw [hceiling, Ceiling.allows_below] at beaten
      omega
    -- whatever was beaten on the way weighs at least as much as the form noted last
    have sound₃ := sound₂.tryWhole ((makes_canonicalize hl hx (Nat.le_refl _)).of_ok whole)
    have onward := Best.from_tryWhole b₂ found
    have least {w : Nat} (hw : ¬ b₂.ceiling.Allows w) : E.skeleton.weight ≤ w := by
      have hE := mt (onward.ceiling w) hw
      rw [sound₃.ceiling, ← hes, ceilingAfter_concat, Ceiling.allows_below] at hE
      exact Nat.le_of_not_lt hE
    have tighter := (Best.from_foldlM (fun _ _ _ => Best.from_tryLast) tried₂).ceiling
    refine ⟨least (mt (tighter _) beaten), fun lasts' hlasts' g hg => ?_⟩
    have lower : b₁.ceiling.lower = .below (F.skeleton.weight + last.weight - 1 : Int) := by
      rw [hceiling, lightest]
      simp [Ceiling.lower]
    rw [lower] at hlasts
    cases hlasts.symm.trans hlasts'
    have := least (beaten₂ g hg)
    rwa [hkept, lightest] at this

/-- The last form of an application is no heavier than the lightest front with the last argument,
and no heavier than the lightest front with any form of the last argument, if the ceiling of both is
high above the last argument. -/
theorem weight_le_of_halves (hl : limits.Numeric) {depth : Nat} {h front last : Skeleton}
    {as : List Skeleton} (hx : (app h as).Bare) (hsize : (app h as).size ≤ depth + 1)
    (hsplit : split h as = .ok (front, last)) {fronts lasts : List Form} {F E : Form}
    (hfronts : front.forms limits depth .infinite = .ok (fronts ++ [F]))
    (hlasts : last.forms limits depth .infinite = .ok lasts)
    (hforms : (app h as).forms limits (depth + 1) .infinite = .ok (l ++ [E])) :
    E.skeleton.weight ≤ F.skeleton.weight + last.weight ∧
      (last.spine + 1 < F.skeleton.weight →
        ∀ f ∈ lasts, E.skeleton.weight ≤ F.skeleton.weight + f.skeleton.weight) := by
  obtain ⟨whole, halves⟩ := weight_le_below hl hx hsize hsplit hfronts hforms
  refine ⟨whole, fun heavy => halves lasts ?_⟩
  obtain ⟨-, hz, -, -, -, hsmall⟩ := (makes_split hx).of_ok hsplit
  dsimp only at hz hsmall
  have hdepth : last.size ≤ depth := by omega
  obtain ⟨below, hbelow, -⟩ := makes_forms hl depth hz hdepth
    (.below (F.skeleton.weight + last.weight - 1 : Int))
  have high : High (.below (F.skeleton.weight + last.weight - 1 : Int)) last := by
    unfold High Ceiling.Allows
    push_cast
    omega
  rw [hbelow, ← (forms_of_high hl depth hz hdepth high hbelow).1, hlasts]

end Skeleton

end Combinatory
