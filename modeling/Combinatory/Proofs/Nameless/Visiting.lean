import Combinatory.Proofs.Ending.LambdaForm
import Combinatory.Proofs.Meaning.Canonical
import Combinatory.Proofs.Nameless.Canonical
import Combinatory.Proofs.Nameless.LambdaForm

/-!
# Visiting the forms of a skeleton

On terms without names and combinators the search for lighter forms shows its visitors the forms of
the skeleton, in this order, each after as many steps and with the remark on where it was found
(`leads_forms`). The visitor of a part of a term keeps up with where the search below the skeleton
of the whole stands (`Tried`). So the forms listed for a term depend on its skeleton alone
(`Held.lists_forms`).
-/

namespace Combinatory

open Engine (Computes)

variable {R : Rules} {Γ : Scope} {e : Places} {p p' : Twins} {limits : Budget}

/-! ### Terms and their skeletons -/

namespace Kinds

/-- No combinators and no names. -/
def lambda : Kinds := ⟨fun _ => False, fun _ => False, False⟩

theorem closed_lambda (R : Rules) : lambda.Closed R := closed_of_isPure R nofun nofun nofun

end Kinds

namespace Term

mutual

/-- A term weighs as much as its skeleton. -/
theorem weight_skeleton : ∀ (t : Term) (e : Places), (t.skeleton e).weight = t.weight
  | var _, _ => by rw [skeleton, Skeleton.weight, weight]
  | native _, _ => by simp [skeleton, Skeleton.weight, weight]
  | foreign _, _ => by simp [skeleton, Skeleton.weight, weight]
  | named info d, e => by
    rw [skeleton, weight]
    split
    · simp [Skeleton.weight]
    · exact weight_skeleton d e
  | lam _ b, e => by rw [skeleton, Skeleton.weight, weight, weight_skeleton b]
  | app _ h as, e => by
    rw [skeleton, Skeleton.weight, weight, weight_skeleton h, weight_skeletons as]

theorem weight_skeletons : ∀ (ts : List Term) (e : Places),
    Skeleton.weightAll (skeletons e ts) = weightAll ts
  | [], _ => by rw [skeletons, Skeleton.weightAll, weightAll]
  | t :: ts, e => by
    rw [skeletons, Skeleton.weightAll, weightAll, weight_skeleton t, weight_skeletons ts]

end

variable {V : Set Variable} {s : Store} {t : Term} {x : Skeleton}

mutual

/-- A term without names has as many nodes as its skeleton. -/
theorem size_skeleton : ∀ {t : Term} {V : Set Variable} (e : Places), t.Regular False V s →
    (t.skeleton e).size = t.size
  | var _, _, _, _ => by simp [skeleton, Skeleton.size, size]
  | native _, _, _, _ => by simp [skeleton, Skeleton.size, size]
  | foreign _, _, _, ht => ht.elim
  | named _ _, _, _, ht => ht.1.elim
  | lam _ b, _, e, ht => by rw [skeleton, Skeleton.size, size, size_skeleton _ ht.2]
  | app _ h as, _, e, ht => by
    rw [skeleton, Skeleton.size, size, size_skeleton e ht.2.1, size_skeletons e ht.2.2]

theorem size_skeletons : ∀ {ts : List Term} {V : Set Variable} (e : Places),
    RegularAll False V s ts → Skeleton.sizeAll (skeletons e ts) = sizeAll ts
  | [], _, _, _ => by rw [skeletons, Skeleton.sizeAll, sizeAll]
  | t :: ts, _, e, hts => by
    rw [skeletons, Skeleton.sizeAll, sizeAll, size_skeleton e hts.1, size_skeletons e hts.2]

end

/-- How many applications are on the way down the fronts. -/
def spine : Term → Nat
  | app _ h as => spine h + as.length
  | lam _ b => spine b
  | _ => 0

/-- A term without names has as many applications on the way down as its skeleton. -/
theorem spine_skeleton : ∀ {t : Term} {V : Set Variable} (e : Places), t.Regular False V s →
    (t.skeleton e).spine = t.spine
  | var _, _, _, _ => by simp [skeleton, Skeleton.spine, spine]
  | native _, _, _, _ => by simp [skeleton, Skeleton.spine, spine]
  | foreign _, _, _, ht => ht.elim
  | named _ _, _, _, ht => ht.1.elim
  | lam _ b, _, e, ht => by rw [skeleton, Skeleton.spine, spine, spine_skeleton _ ht.2]
  | app _ h as, _, e, ht => by
    rw [skeleton, Skeleton.spine, spine, spine_skeleton e ht.2.1, length_skeletons]

mutual

/-- A term without names is made of lambdas and variables if its skeleton is bare. -/
theorem Regular.madeOf_lambda : ∀ {t : Term} {V : Set Variable} {e : Places},
    t.Regular False V s → (t.skeleton e).Bare → t.MadeOf .lambda
  | var _, _, _, _, _ => trivial
  | native _, _, _, _, hx => by
    rw [skeleton] at hx
    exact hx.elim
  | foreign _, _, _, ht, _ => ht.elim
  | named _ _, _, _, ht, _ => ht.1.elim
  | lam _ b, _, _, ht, hx => by
    rw [skeleton] at hx
    exact Regular.madeOf_lambda (t := b) ht.2 hx
  | app _ h as, _, _, ht, hx => by
    rw [skeleton] at hx
    refine ⟨fun happ => ?_, Regular.madeOf_lambda ht.2.1 hx.2.1,
      RegularAll.madeOf_lambda ht.2.2 hx.2.2⟩
    obtain ⟨n, g, bs, rfl⟩ := eq_app_of_isApp happ
    exact ht.1.flat n g bs rfl

theorem RegularAll.madeOf_lambda : ∀ {ts : List Term} {V : Set Variable} {e : Places},
    RegularAll False V s ts → Skeleton.BareAll (skeletons e ts) → MadeOfAll .lambda ts
  | [], _, _, _, _ => trivial
  | _ :: _, _, _, hts, hxs => by
    rw [skeletons] at hxs
    exact ⟨Regular.madeOf_lambda hts.1 hxs.1, RegularAll.madeOf_lambda hts.2 hxs.2⟩

end

mutual

/-- A term made of lambdas and variables has a bare skeleton. -/
theorem MadeOf.bare : ∀ {t : Term} {V : Set Variable} (e : Places), t.MadeOf .lambda →
    t.Regular False V s → (t.skeleton e).Bare
  | var _, _, _, _, _ => by
    rw [skeleton]
    trivial
  | native _, _, _, ht, _ => ht.elim
  | foreign _, _, _, ht, _ => ht.elim
  | named _ _, _, _, ht, _ => ht.1.elim
  | lam _ b, _, _, ht, hplain => by
    rw [skeleton]
    exact MadeOf.bare (t := b) _ ht hplain.2
  | app _ _ as, _, e, ⟨_, hh, has⟩, ⟨hst, hplain, haplain⟩ => by
    rw [skeleton]
    refine ⟨fun hnil => hst.nonempty ?_, hh.bare e hplain, has.bare e haplain⟩
    rw [← List.length_eq_zero_iff, ← length_skeletons e as, hnil, List.length_nil]

theorem MadeOfAll.bare : ∀ {ts : List Term} {V : Set Variable} (e : Places),
    MadeOfAll .lambda ts → RegularAll False V s ts → Skeleton.BareAll (skeletons e ts)
  | [], _, _, _, _ => by
    rw [skeletons]
    trivial
  | _ :: _, _, e, ⟨ht, hts⟩, ⟨hplain, hplains⟩ => by
    rw [skeletons]
    exact ⟨ht.bare e hplain, hts.bare e hplains⟩

end

/-! ### Terms at hand -/

/-- A term at hand is applied to one argument as its skeleton is. -/
theorem Held.computes_apply_one {a : Term} {y : Skeleton} (ht : Held Γ e x t p)
    (ha : Held Γ e y a p) :
    Computes (apply R t [a]) p.left (x.apply [y])
      fun z u s' => ∃ p', p ≤ p' ∧ p'.left = s' ∧ Held Γ e z u p' := by
  have single : skeletons e [a] = [y] := by rw [skeletons, ha.shaped.skeleton, skeletons]
  rw [← single]
  apply ht.computes_apply
  intro b hb
  rw [List.mem_singleton.mp hb, ha.shaped.skeleton]
  exact ha

/-- Both halves of a lambda term are computed, and can be taken apart less often than the whole. -/
theorem Held.computes_halves {n : Nat} {h : Term} {as : List Term}
    (ht : Held Γ e x (app n h as) p) (made : (app n h as).MadeOf .lambda) :
    Computes (split R h as) p.left (Skeleton.split (h.skeleton e) (skeletons e as))
      fun r o s' => ∃ p', p ≤ p' ∧ p'.left = s' ∧ Held Γ e r.1 o.1 p' ∧ Held Γ e r.2 o.2 p' ∧
        o.1.halvings < (app n h as).halvings ∧ o.2.halvings < (app n h as).halvings := by
  have flat : h.isApp = false := Bool.eq_false_iff.mpr made.1
  apply (computes_split ht).traced.imp
  rintro r o _ - ⟨⟨p', hp, rfl, hf, hl⟩, hsplit⟩
  have less := halvings_split (n := n) (Kinds.closed_lambda R) made.2.1 flat made.2.2 hsplit
  exact ⟨p', hp, rfl, hf, hl, less⟩

/-- The body of a lambda at hand is at hand below it. -/
theorem Held.body {v : Variable} {b : Term} (ht : Held Γ e x (lam v b) p) :
    Held (Γ.bind v) (e.bind v) (b.skeleton (e.bind v)) b p := by
  obtain ⟨hΓ, ⟨hplain, -⟩, ⟨-, hv, hfits⟩, hrec⟩ := ht
  exact ⟨hΓ.bind hv, hplain.2.shaped _, hfits, hrec⟩

/-- A term at hand below a lambda gives one at hand when it is closed. -/
theorem Held.computes_abstract {v : Variable} (hΓ : Γ.Sealed p.left)
    (ht : Held (Γ.bind v) (e.bind v) x t p) :
    Computes (abstract R v t) p.left (pure (.lam x))
      fun y u s' => ∃ p', p ≤ p' ∧ p'.left = s' ∧ Held Γ e y u p' := by
  have closed : Computes (abstract R v t) p.left (pure (Skeleton.lam x)) (Shaped e) := by
    refine .of_gives ((gives_abstract (ht.shaped.plain.unbound (W := insert v ∅))).imp ?_)
    intro u s' _ hu
    exact ⟨hu.regular, by rw [hu.skeleton, ht.shaped.skeleton]⟩
  have seen : t.Fits (Γ.see v) p.left := ht.fits.mono ((Scope.Below.refl Γ).bind_see v)
  have fits := closed.ensured (ensures_abstract (η := True) R hΓ.minted (.self seen))
  apply (fits.and_alike (records_abstract (.of_pure R p) ht.recorded)).imp
  rintro y u _ - ⟨⟨hu, hmeans⟩, p', hp, rfl, hrec⟩
  exact ⟨p', hp, rfl, hΓ.later hp.nextVariable, hu, hmeans.fits, hrec⟩

/-- What a search for a canonical form ends with is at hand, and as the skeleton has it. -/
theorem Held.computes_finding (ht : Held Γ e x t p) :
    Computes (canonicalize R limits t false) p.left (x.canonicalize limits x.size)
      fun f c s' => ∃ p', p ≤ p' ∧ p'.left = s' ∧ c.steps = f.steps ∧
        Option.Rel (Held Γ e · · p') f.canonical c.canonical := by
  obtain ⟨hΓ, hshaped, hfits, hrec⟩ := id ht
  have depth : t.size ≤ x.size := by
    rw [← hshaped.skeleton, size_skeleton e hshaped.plain]
  have found := (Term.computes_canonicalize (R := R) limits depth ht).ensured
    (ensures_canonicalize (η := True) R trivial limits false hΓ hfits)
  apply (found.and_alike (records_canonicalize (.of_pure R p) limits false hrec)).imp
  rintro f c _ - ⟨⟨hdescribes, hmeans⟩, p', hp, rfl, hrec⟩
  have held {y : Skeleton} {u : Term} (hu : Shaped e y u p'.left) (hc : c.canonical = some u) :
      Held Γ e y u p' :=
    ⟨hΓ.later hp.nextVariable, hu, (hmeans u hc).fits, hrec u hc⟩
  refine ⟨p', hp, rfl, ?_⟩
  cases hdescribes with
  | found h => exact ⟨rfl, .some (held h.term rfl)⟩
  | notFound h =>
    refine ⟨rfl, ?_⟩
    cases h with
    | none => exact .none
    | some h => exact .some (held h rfl)

end Term

/-! ### Searches that lead somewhere -/

namespace Search

variable {α β γ : Type} {found found' : Array β}

/-- A search without a limit that has a result, from twins at hand and the forms found so far. -/
def Leads (x : Search β α) (found : Array β) (p : Twins) (Q : α → Array β → Twins → Prop) : Prop :=
  ∃ a found' p', x ⟨p.left, found, none⟩ = .ok a ⟨p'.left, found', none⟩ ∧ p ≤ p' ∧ Q a found' p'

namespace Leads

variable {x : Search β α} {P Q : α → Array β → Twins → Prop}

protected theorem pure {a : α} (h : Q a found p) : Leads (Pure.pure a) found p Q :=
  ⟨a, found, p, rfl, p.le_refl, h⟩

theorem imp (hx : Leads x found p P)
    (h : ∀ a found' p', p ≤ p' → P a found' p' → Q a found' p') : Leads x found p Q := by
  obtain ⟨a, found', p', hr, hp, ha⟩ := hx
  exact ⟨a, found', p', hr, hp, h a found' p' hp ha⟩

protected theorem bind {f : α → Search β γ} {Q : γ → Array β → Twins → Prop}
    (hx : Leads x found p P)
    (hf : ∀ a found' p', p ≤ p' → P a found' p' → Leads (f a) found' p' Q) :
    Leads (x >>= f) found p Q := by
  obtain ⟨a, found₁, p₁, hr, hp₁, ha⟩ := hx
  obtain ⟨b, found₂, p₂, hr₂, hp₂, hb⟩ := hf a found₁ p₁ hp₁ ha
  refine ⟨b, found₂, p₂, ?_, Twins.le_trans hp₁ hp₂, hb⟩
  change EStateM.bind x f _ = _
  rw [EStateM.bind, hr]
  exact hr₂

/-- What comes after a search that has a result may tell what is made of skeletons. -/
theorem makes_bind {ρ : Type} {r : Except Failure ρ} {f : α → Search β γ}
    {Q : ρ → γ → Array β → Twins → Prop} (hx : Leads x found p P)
    (hf : ∀ a found' p', p ≤ p' → P a found' p' →
      Makes r fun y => Leads (f a) found' p' (Q y)) :
    Makes r fun y => Leads (x >>= f) found p (Q y) := by
  obtain ⟨a, found₁, p₁, hr, hp₁, ha⟩ := hx
  obtain ⟨y, hy, leads⟩ := hf a found₁ p₁ hp₁ ha
  have first : Leads x found p fun a' found' p' => a' = a ∧ found' = found₁ ∧ p' = p₁ :=
    ⟨a, found₁, p₁, hr, hp₁, rfl, rfl, rfl⟩
  refine ⟨y, hy, first.bind ?_⟩
  rintro _ _ _ - ⟨rfl, rfl, rfl⟩
  exact leads

end Leads

/-- A computation of the engine that computes a result is part of a search that has one. -/
theorem leads_lift {b : γ} {x : Engine α} {r : Except Failure γ} {P : γ → α → Twins → Prop}
    (hx : Computes x p.left r fun b a s' => ∃ p', p ≤ p' ∧ p'.left = s' ∧ P b a p')
    (hr : r = .ok b) (found : Array β) :
    Leads (lift x) found p fun a found' p' => found' = found ∧ P b a p' := by
  subst hr
  obtain ⟨a, _, hr, -, p', hp, rfl, ha⟩ := hx
  refine ⟨a, found, p', ?_, hp, rfl, ha⟩
  unfold lift
  dsimp only
  rw [hr]

/-- Whether a term is light enough is told where a ceiling can be compared with. -/
theorem admits_eq {c : Ceiling} (hc : c.Proper) (t : Term) :
    (admits c t : Search β Bool) = pure (decide (c.Allows t.weight)) := by
  unfold admits
  rw [Ceiling.admits_eq hc]

/-- A constant of the engine is one of a search. -/
theorem lift_pure (a : α) : (lift (pure a) : Search β α) = pure a := rfl

theorem lowered_eq {c : Ceiling} (hc : c.Proper) :
    (lowered c : Search β Ceiling) = pure c.lower := by
  unfold lowered
  rw [Ceiling.lowered_eq hc]

end Search

/-! ### Visitors -/

/-- A candidate is a form of a skeleton. -/
structure Depicts (Γ : Scope) (e : Places) (f : Skeleton.Form) (c : Candidate) (p : Twins) :
    Prop where
  term : c.term.Held Γ e f.skeleton p
  bare : f.skeleton.Bare
  steps : c.steps = f.steps
  origin : c.origin = f.origin

theorem Depicts.later {f : Skeleton.Form} {c : Candidate} (h : Depicts Γ e f c p) (hp : p ≤ p') :
    Depicts Γ e f c p' :=
  ⟨h.term.later hp, h.bare, h.steps, h.origin⟩

variable {β σ : Type} {I : List Skeleton.Form → σ → Array β → Twins → Prop}
  {visit : σ → Candidate → Search β σ}

/-- A visitor that is shown forms one by one, and what it keeps up with all of them. -/
structure KeepsUp (Γ : Scope) (e : Places) (I : List Skeleton.Form → σ → Array β → Twins → Prop)
    (visit : σ → Candidate → Search β σ) : Prop where
  later : ∀ l seen found p p', p ≤ p' → I l seen found p → I l seen found p'
  visit : ∀ l seen found p f c, I l seen found p → Depicts Γ e f c p →
    Search.Leads (visit seen c) found p (I (l ++ [f]))

/-- Where the search below a term stands is where the one below its skeleton does, the visitor
having been shown what was noted there after what came before. -/
structure Best.Matches (Γ : Scope) (e : Places)
    (I : List Skeleton.Form → σ → Array β → Twins → Prop) (before : List Skeleton.Form)
    (b : Skeleton.Best) (best : Best σ) (found : Array β) (p : Twins) : Prop where
  proper : b.ceiling.Proper
  ceiling : best.ceiling = b.ceiling
  front : best.front.Held Γ e b.front p
  bare : b.front.Bare
  steps : best.steps = b.steps
  seen : I (before ++ b.found) best.seen found p

namespace Best

variable {Δ : Scope} {d : Places} {before : List Skeleton.Form} {b : Skeleton.Best} {best : Best σ}
  {found : Array β}

theorem Matches.later (hv : KeepsUp Γ e I visit) (h : Matches Δ d I before b best found p)
    (hp : p ≤ p') : Matches Δ d I before b best found p' :=
  ⟨h.proper, h.ceiling, h.front.later hp, h.bare, h.steps, hv.later _ _ _ _ _ hp h.seen⟩

/-- A candidate is visited if its skeleton is noted. -/
theorem Matches.leads_improve (hv : KeepsUp Γ e I visit) (h : Matches Δ d I before b best found p)
    {candidate front : Term} {y z : Skeleton} (hc : candidate.Held Γ e y p) (hy : y.Bare)
    (hf : front.Held Δ d z p) (hz : z.Bare) {part : Candidate} {n : Nat}
    (hsteps : part.steps = n) (origin : Origin) :
    Search.Leads (best.improve candidate part origin front visit) found p
      (Matches Δ d I before (b.improve ⟨y, n, origin⟩ z)) := by
  unfold improve Skeleton.Best.improve
  rw [h.ceiling, Search.admits_eq h.proper, pure_bind, ← Term.weight_skeleton candidate e,
    hc.shaped.skeleton]
  by_cases hallows : b.ceiling.Allows y.weight
  · simp only [hallows, decide_true, if_true]
    rw [h.steps, hsteps]
    apply (hv.visit _ _ _ _ ⟨y, b.steps + n, origin⟩ _ h.seen ⟨hc, hy, rfl, rfl⟩).bind
    intro seen found' p' hp hseen
    rw [List.append_assoc] at hseen
    exact .pure ⟨trivial, rfl, hf.later hp, hz, rfl, hseen⟩
  · simp only [hallows, decide_false, Bool.false_eq_true, if_false]
    exact .pure h

/-- What is kept up when forms of a part have been tried one by one, since some moment. -/
def Tried (Γ : Scope) (e : Places) (I : List Skeleton.Form → σ → Array β → Twins → Prop)
    (before : List Skeleton.Form) (start : Skeleton.Best)
    (attempt : Skeleton.Best → Skeleton.Form → Except Failure Skeleton.Best) (p₀ : Twins)
    (l : List Skeleton.Form) (best : Best σ) (found : Array β) (p : Twins) : Prop :=
  p₀ ≤ p ∧ ∃ b, l.foldlM attempt start = .ok b ∧ Matches Γ e I before b best found p

/-- Nothing has been tried at first. -/
theorem Matches.tried (h : Matches Δ d I before b best found p)
    (attempt : Skeleton.Best → Skeleton.Form → Except Failure Skeleton.Best) :
    Tried Δ d I before b attempt p [] best found p :=
  ⟨p.le_refl, b, rfl, h⟩

/-- A visitor that tries what the search below the skeleton tries keeps up with it. -/
theorem keepsUp_tried {Θ : Scope} {g : Places} (hv : KeepsUp Γ e I visit) {start : Skeleton.Best}
    {attempt : Skeleton.Best → Skeleton.Form → Except Failure Skeleton.Best}
    {visit' : Best σ → Candidate → Search β (Best σ)} {p₀ : Twins}
    (h : ∀ b best found p f c, p₀ ≤ p → Matches Δ d I before b best found p →
      Depicts Θ g f c p → Makes (attempt b f) fun b' =>
        Search.Leads (visit' best c) found p (Matches Δ d I before b')) :
    KeepsUp Θ g (Tried Δ d I before start attempt p₀) visit' where
  later l best found p p' hp := by
    rintro ⟨hp₀, b, hb, hmatches⟩
    exact ⟨Twins.le_trans hp₀ hp, b, hb, hmatches.later hv hp⟩
  visit l best found p f c := by
    rintro ⟨hp₀, b, hb, hmatches⟩ hc
    obtain ⟨b', hb', leads⟩ := h b best found p f c hp₀ hmatches hc
    apply leads.imp
    intro best' found' p' hp h'
    refine ⟨Twins.le_trans hp₀ hp, b', ?_, h'⟩
    rw [List.foldlM_append, hb]
    change attempt b f >>= pure = _
    rw [hb']
    rfl

/-- A visitor of an application keeps up with the forms of the front. -/
theorem keepsUp_front (hv : KeepsUp Γ e I visit) {last : Term} {y : Skeleton} {p₀ : Twins}
    (hlast : last.Held Γ e y p₀) (hy : y.Bare) (start : Skeleton.Best) :
    KeepsUp Γ e (Tried Γ e I before start (Skeleton.Best.tryFront y) p₀)
      (fun best found => do
        let candidate ← Search.lift (Term.apply R found.term [last])
        best.improve candidate found (.inApplication found.origin) found.term visit) := by
  refine keepsUp_tried hv fun b best found p f c hp₀ hb hc => ?_
  obtain ⟨z, hz, hbare⟩ := Skeleton.makes_apply_bare hc.bare (.cons hy .nil)
  have hlast := hlast.later hp₀
  have applied := hc.term.computes_apply_one (R := R) hlast
  refine ⟨_, by rw [Skeleton.Best.tryFront, hz]; rfl, ?_⟩
  apply (Search.leads_lift applied hz found).bind
  rintro candidate _ p₁ hp₁ ⟨rfl, hcandidate⟩
  rw [hc.origin]
  exact (hb.later hv hp₁).leads_improve hv hcandidate hbare (hc.term.later hp₁) hc.bare hc.steps _

/-- A visitor of an application keeps up with the forms of the last argument. -/
theorem keepsUp_last (hv : KeepsUp Γ e I visit) (p₀ : Twins) (start : Skeleton.Best) :
    KeepsUp Γ e (Tried Γ e I before start Skeleton.Best.tryLast p₀)
      (fun best found => do
        let candidate ← Search.lift (Term.apply R best.front [found.term])
        best.improve candidate found (.inApplication found.origin) best.front visit) := by
  refine keepsUp_tried hv fun b best found p f c hp₀ hb hc => ?_
  obtain ⟨z, hz, hbare⟩ := Skeleton.makes_apply_bare hb.bare (.cons hc.bare .nil)
  have applied := hb.front.computes_apply_one (R := R) hc.term
  refine ⟨_, by rw [Skeleton.Best.tryLast, hz]; rfl, ?_⟩
  apply (Search.leads_lift applied hz found).bind
  rintro candidate _ p₁ hp₁ ⟨rfl, hcandidate⟩
  rw [hc.origin]
  exact (hb.later hv hp₁).leads_improve hv hcandidate hbare (hb.front.later hp₁) hb.bare hc.steps _

/-- A visitor of a lambda keeps up with the forms of the body. -/
theorem keepsUp_body (hv : KeepsUp Γ e I visit) {p₀ : Twins} (hΓ : Γ.Sealed p₀.left) (v : Variable)
    (start : Skeleton.Best) :
    KeepsUp (Γ.bind v) (e.bind v)
      (Tried (Γ.bind v) (e.bind v) I before start Skeleton.Best.tryBody p₀)
      (fun best found => do
        let candidate ← Search.lift (Term.abstract R v found.term)
        best.improve candidate found (.inLambda found.origin) best.front visit) := by
  refine keepsUp_tried hv fun b best found p f c hp₀ hb hc => ?_
  have closed := hc.term.computes_abstract (R := R) (hΓ.later hp₀.nextVariable)
  refine ⟨_, rfl, ?_⟩
  apply (Search.leads_lift closed rfl found).bind
  rintro candidate _ p₁ hp₁ ⟨rfl, hcandidate⟩
  rw [hc.origin]
  exact (hb.later hv hp₁).leads_improve hv hcandidate (z := b.front) hc.bare (hb.front.later hp₁)
    hb.bare hc.steps _

end Best

namespace Term

variable {t : Term} {x : Skeleton} {before : List Skeleton.Form} {found : Array β}

/-- After the parts of a term the whole is visited if it is noted. -/
private theorem leads_whole (hv : KeepsUp Γ e I visit) (hl : limits.Numeric) (ht : Held Γ e x t p)
    (hx : x.Bare) {Δ : Scope} {d : Places} {b : Skeleton.Best} {best : Best σ}
    (hb : best.Matches Δ d I before b found p) :
    Makes (do return (b.tryWhole (← x.canonicalize limits x.size)).found) fun l => Search.Leads (do
      let outcome ← Search.lift (canonicalize R limits t false)
      match outcome.canonical with
      | some form =>
        if ← Search.admits best.ceiling form then
          visit best.seen ⟨form, best.steps + outcome.steps, .canonical⟩
        else return best.seen
      | none => return best.seen) found p (I (before ++ l)) := by
  apply (Skeleton.makes_canonicalize hl hx (Nat.le_refl _)).traced.bind
  rintro f ⟨hbare, hf⟩
  refine .pure ?_
  apply (Search.leads_lift (ht.computes_finding (R := R)) hf found).bind
  rintro outcome _ p₁ hp₁ ⟨rfl, hsteps, hrel⟩
  have hb := hb.later hv hp₁
  unfold Skeleton.Best.tryWhole Skeleton.Best.improve
  generalize hy : f.canonical = o at hrel
  generalize hu : outcome.canonical = o' at hrel
  cases hrel with
  | none => exact .pure hb.seen
  | @some y form hform =>
    dsimp only
    rw [hb.ceiling, Search.admits_eq hb.proper, pure_bind, ← weight_skeleton form e,
      hform.shaped.skeleton]
    by_cases hallows : b.ceiling.Allows y.weight
    · simp only [hallows, decide_true, if_true]
      have shown := hv.visit _ _ _ _ ⟨y, b.steps + f.steps, .canonical⟩
        ⟨form, best.steps + outcome.steps, .canonical⟩ hb.seen
        ⟨hform, hbare y hy, by simp [hb.steps, hsteps], rfl⟩
      rwa [List.append_assoc] at shown
    · simp only [hallows, decide_false, Bool.false_eq_true, if_false]
      exact .pure hb.seen

/-- The search below a term shows its visitor the forms of the skeleton. -/
theorem leads_forms (hl : limits.Numeric) (depth : Nat) {σ : Type}
    {I : List Skeleton.Form → σ → Array β → Twins → Prop} {visit : σ → Candidate → Search β σ}
    (hv : KeepsUp Γ e I visit) (ht : Held Γ e x t p) (hx : x.Bare) (hsize : x.size ≤ depth)
    {depth' : Nat} (hdepth : t.halvings ≤ depth') {c : Ceiling} (hc : c.Proper) {seen : σ}
    (hseen : I before seen found p) :
    Makes (x.forms limits depth c) fun l =>
      Search.Leads (forms R limits depth' t c seen visit) found p (I (before ++ l)) := by
  induction depth generalizing Γ e p σ t x before found depth' c with
  | zero => exact absurd hsize (Nat.not_le_of_lt x.size_pos)
  | succ depth ih =>
    obtain _ | depth' := depth'
    · exact absurd hdepth (Nat.not_le_of_lt t.halvings_pos)
    have made := ht.shaped.plain.madeOf_lambda (ht.shaped.skeleton ▸ hx)
    have light : t.weight = x.weight := by rw [← ht.shaped.skeleton, weight_skeleton]
    unfold Skeleton.forms forms
    rw [made.variablesOnly_eq, Search.lift_pure, pure_bind, light]
    by_cases hw : x.weight = 0
    · rw [if_pos hw, if_pos (decide_eq_true hw), Search.admits_eq hc, pure_bind, light, hw]
      refine .pure ?_
      by_cases hallows : c.Allows 0
      · simp only [hallows, decide_true, if_true]
        exact hv.visit _ _ _ _ ⟨x, 0, .freeVariables⟩ ⟨t, 0, .freeVariables⟩ hseen
          ⟨ht, hx, rfl, rfl⟩
      · simp only [hallows, decide_false, Bool.false_eq_true, if_false, List.append_nil]
        exact .pure hseen
    · rw [if_neg hw, if_neg (by simp [hw])]
      have hskeleton := ht.shaped.skeleton
      cases t with
      | app n h as =>
        rw [skeleton] at hskeleton
        subst hskeleton
        dsimp only
        obtain ⟨⟨y, z⟩, hsplit, hy, hz, -, -, hfront, hlast⟩ := Skeleton.makes_split hx
        dsimp only at hy hz hfront hlast
        apply (Search.leads_lift (ht.computes_halves (R := R) made) hsplit found).makes_bind
        rintro ⟨front, last⟩ found₀ p₁ hp₁ ⟨rfl, hheld, hlheld, hfront', hlast'⟩
        dsimp only at hheld hlheld hfront' hlast' ⊢
        rw [hsplit, Search.lowered_eq hc, pure_bind]
        have start : Best.Matches Γ e I before ⟨c, y, 0, []⟩ ⟨c, front, 0, seen⟩ found₀ p₁ :=
          ⟨hc, rfl, hheld, hy, rfl, by simpa using hv.later _ _ _ _ _ hp₁ hseen⟩
        have hfront' : front.halvings ≤ depth' := by omega
        have hlast' : last.halvings ≤ depth' := by omega
        apply (ih (Best.keepsUp_front hv hlheld hz ⟨c, y, 0, []⟩) hheld hy (by omega) hfront'
          hc.lower (start.tried _)).bind
        intro fronts leads
        apply leads.makes_bind
        rintro best₁ found₁ p₂ hp₂ ⟨-, b₁, hb₁, hmatches₁⟩
        rw [List.nil_append] at hb₁
        rw [hb₁, hmatches₁.ceiling, Search.lowered_eq hmatches₁.proper, pure_bind]
        apply (ih (Best.keepsUp_last hv p₂ b₁) (hlheld.later hp₂) hz (by omega) hlast'
          hmatches₁.proper.lower (hmatches₁.tried _)).bind
        intro lasts leads
        apply leads.makes_bind
        rintro best₂ found₂ p₃ hp₃ ⟨-, b₂, hb₂, hmatches₂⟩
        rw [List.nil_append] at hb₂
        rw [hb₂]
        exact leads_whole hv hl (ht.later (Twins.le_trans hp₁ (Twins.le_trans hp₂ hp₃))) hx
          hmatches₂
      | lam v b =>
        rw [skeleton] at hskeleton
        subst hskeleton
        dsimp only
        have hb : (b.skeleton (e.bind v)).Bare := hx
        rw [Search.lowered_eq hc, pure_bind]
        rw [Skeleton.size] at hsize
        rw [halvings] at hdepth
        have start : Best.Matches (Γ.bind v) (e.bind v) I before
            ⟨c, b.skeleton (e.bind v), 0, []⟩ ⟨c, b, 0, seen⟩ found p :=
          ⟨hc, rfl, ht.body, hb, rfl, by simpa using hseen⟩
        apply (ih (Best.keepsUp_body hv ht.scope v ⟨c, b.skeleton (e.bind v), 0, []⟩) ht.body hb
          (by omega) (Nat.le_of_succ_le_succ hdepth) hc.lower (start.tried _)).bind
        intro bodies leads
        apply leads.makes_bind
        rintro best found₁ p₁ hp₁ ⟨-, b', hb', hmatches⟩
        rw [List.nil_append] at hb'
        rw [hb']
        exact leads_whole hv hl (ht.later hp₁) hx hmatches
      | var v =>
        rw [skeleton] at hskeleton
        subst hskeleton
        exact absurd (by simp [Skeleton.weight]) hw
      | native c => exact made.elim
      | foreign y => exact made.elim
      | named info d => exact made.1.elim

/-! ### Listings -/

/-- What is kept up by noting forms: all of them are listed. -/
def Noted (Γ : Scope) (e : Places) (l : List Skeleton.Form) (_ : Unit) (found : Array Candidate)
    (p : Twins) : Prop :=
  List.Forall₂ (Depicts Γ e · · p) l found.toList

private theorem keepsUp_note (Γ : Scope) (e : Places) :
    KeepsUp Γ e (Noted Γ e) fun _ c => Search.note .ok c where
  later _ _ _ _ _ hp h := h.imp fun _ _ h => h.later hp
  visit l _ found p f c h hc := by
    refine ⟨(), found.push c, p, rfl, p.le_refl, ?_⟩
    unfold Noted
    rw [Array.toList_push]
    exact List.rel_append h (.cons hc .nil)

/-- The forms listed for a term are those of its skeleton. -/
theorem Held.lists_forms (hl : limits.Numeric) {depth : Nat} (ht : Held Γ e x t p) (hx : x.Bare)
    (hsize : x.size ≤ depth) {c : Ceiling} (hc : c.Proper) :
    Makes (x.forms limits depth c) fun l => ∃ cs p', p ≤ p' ∧
      lighterForms R limits c none .ok t p.left = .ok ⟨cs, none⟩ p'.left ∧
      List.Forall₂ (Depicts Γ e · · p') l cs := by
  have deep : t.halvings ≤ t.splitDepth := Nat.le_add_right _ _
  have start : Noted Γ e [] () #[] p := .nil
  apply (leads_forms (R := R) hl depth (keepsUp_note Γ e) ht hx hsize deep hc start).imp
  rintro l ⟨⟨⟩, found, p', hr, hp, hforms⟩
  refine ⟨found.toList, p', hp, ?_, hforms⟩
  unfold lighterForms Search.collect
  dsimp only
  rw [if_neg nofun, hr]

end Term

end Combinatory
