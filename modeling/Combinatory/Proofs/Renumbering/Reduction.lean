import Combinatory.Proofs.Renumbering
import Combinatory.Proofs.Settled.Strategy
import Combinatory.Proofs.Trail

/-!
# Renumbered reduction

Application, substitution, the rules of the combinators and steps make the same of renumbered terms
as of the terms, and so do whole runs: they take the same steps and end with the same term,
renumbered, or both fail.
-/

namespace Combinatory

/-- Two computations have the same term for a result, renumbered. -/
abbrev Renumbers (ρ : Renumbering) (x y : Engine Term) : Prop :=
  Renumbered ρ x y fun t u => t.MadeOf .pure ∧ u = t.renumber ρ

/-- Two computations have the same term for a result, renumbered, if they have any. -/
abbrev RenumbersAny (ρ : Renumbering) (x y : Engine (Option Term)) : Prop :=
  Renumbered ρ x y fun o o' => Term.MadeOfAny .pure o ∧ o' = o.map (·.renumber ρ)

variable {ρ : Renumbering} {R R' : Rules} {t : Term}

theorem Renumbers.some {x y : Engine Term} (h : Renumbers ρ x y) :
    RenumbersAny ρ (do return Option.some (← x)) (do return Option.some (← y)) := by
  apply h.bind
  rintro t _ ⟨ht, rfl⟩
  refine .pure ⟨?_, rfl⟩
  rintro _ ⟨⟩
  exact ht

theorem renumbersAny_none : RenumbersAny ρ (pure none) (pure none) := .pure ⟨nofun, rfl⟩

theorem renumbersAny_some (ht : t.MadeOf .pure) :
    RenumbersAny ρ (pure (some t)) (pure (some (t.renumber ρ))) :=
  Renumbers.some (.pure ⟨ht, rfl⟩)

namespace Native

/-- What a combinator puts in its place does not depend on identities. -/
theorem renumbered_replacement {c : Native} (hc : c.isPure = true) (a : Term) :
    Renumbered ρ (c.replacement R a) (c.replacement R' (a.renumber ρ))
      fun o o' => o' = o.map (·.renumber ρ) ∧ Term.MadeOfAny .pure o := by
  refine .ends ?_ ((ends_replacement (Kinds.closed_pure R) hc a).imp fun o ho u hu => (ho u hu).1)
  cases c with
  | successor =>
    cases a with
    | native d =>
      cases d with
      | numeral n =>
        unfold replacement
        dsimp only [Term.renumber]
        split
        · exact .pure rfl
        · exact .throw
      | _ => exact .pure rfl
    | _ => exact .pure rfl
  | toNumeral => cases hc
  | lambdaMark => cases hc
  | user u => cases hc
  | _ => exact .pure rfl

end Native

namespace Term

/-! ### Application -/

private theorem renumbered_extend : ∀ (as : List Term) {t : Term}, t.MadeOf .pure →
    Renumbered ρ (extend R t as) (extend R' (t.renumber ρ) (renumberAll ρ as))
      fun t u => u = t.renumber ρ
  | [], t, _ => by
    rw [renumberAll]
    unfold extend
    exact .pure rfl
  | a :: as, t, ht => by
    have node := Engine.renumbered_node (ρ := ρ) t (a :: as)
    rw [renumberAll] at node ⊢
    cases t with
    | app n h bs =>
      rw [renumber, extend_app, extend_app, ← renumberAll, ← renumberAll_append]
      exact Engine.renumbered_node h (bs ++ a :: as)
    | native c =>
      rw [renumber] at node ⊢
      unfold extend
      apply (Native.renumbered_replacement ht a).bind
      rintro o _ ⟨rfl, ho⟩
      cases o with
      | some r => exact renumbered_extend as (ho r rfl)
      | none => exact node
    | _ => exact node

/-- Applying renumbered terms makes the same application, renumbered. -/
theorem renumbers_apply {as : List Term} (ht : t.MadeOf .pure) (has : MadeOfAll .pure as) :
    Renumbers ρ (apply R t as) (apply R' (t.renumber ρ) (renumberAll ρ as)) := by
  rw [apply_eq_extend R' _ has.renumberAll.firstLiteral_eq_none]
  have made := ends_apply_madeOf (Kinds.closed_pure R) ht has
  rw [apply_eq_extend R t has.firstLiteral_eq_none] at made ⊢
  exact ((renumbered_extend as ht).ends made).imp fun _ _ h => ⟨h.2, h.1⟩

/-! ### Putting a term in place of a variable -/

theorem isNull_renumber (t : Term) : (t.renumber ρ).isNull = t.isNull := by
  cases t <;> rfl

/-- Terms with what was made of them, renumbered. -/
private def renumberPairs (ρ : Renumbering) (ps : List (Term × Option Term)) :
    List (Term × Option Term) :=
  ps.map fun p => (p.1.renumber ρ, p.2.map (·.renumber ρ))

private theorem all_isNone_renumberPairs (ps : List (Term × Option Term)) :
    (renumberPairs ρ ps).all (·.2.isNone) = ps.all (·.2.isNone) := by
  simp [renumberPairs, Function.comp_def]

private theorem map_getD_renumberPairs (ps : List (Term × Option Term)) :
    (renumberPairs ρ ps).map (fun p => p.2.getD p.1) =
      renumberAll ρ (ps.map fun p => p.2.getD p.1) := by
  simp [renumberAll_eq_map, renumberPairs, Function.comp_def]

private theorem MadeOfAny.getD {K : Kinds} {o : Option Term} (ho : MadeOfAny K o)
    (ht : t.MadeOf K) : (o.getD t).MadeOf K := by
  cases o with
  | none => exact ht
  | some u => exact ho u rfl

mutual

private theorem renumbersAny_replace {v : Variable} {value : Term} (hvalue : value.MadeOf .pure)
    {f g : Variable → Term → Engine Term}
    (hf : ∀ w b, b.MadeOf .pure → Renumbers ρ (f w b) (g (ρ.onVariable w) (b.renumber ρ))) :
    ∀ {t : Term}, t.MadeOf .pure → RenumbersAny ρ (replace R f t v value)
      (replace R' g (t.renumber ρ) (ρ.onVariable v) (value.renumber ρ))
  | var w, _ => by
    unfold replace
    rw [renumber]
    simp only [Renumbering.onVariable_inj, isNull_renumber]
    split
    · exact renumbersAny_some hvalue
    · exact renumbersAny_none
  | native c, _ => by
    unfold replace
    exact renumbersAny_none
  | foreign x, _ => by
    unfold replace
    exact renumbersAny_none
  | named info d, ht => by
    unfold replace
    exact renumbersAny_replace hvalue hf (t := d) ht.2
  | lam w b, ht => by
    unfold replace
    rw [renumber]
    simp only [Renumbering.onVariable_inj]
    split
    · exact renumbersAny_none
    · apply (renumbersAny_replace hvalue hf (t := b) ht).bind
      rintro o _ ⟨ho, rfl⟩
      cases o with
      | none => exact renumbersAny_none
      | some b' => exact (hf w b' (ho b' rfl)).some
  | app n h as, ⟨_, hh, has⟩ => by
    unfold replace
    rw [renumber]
    apply (renumbersAny_replace hvalue hf hh).bind
    rintro h' _ ⟨hh', rfl⟩
    apply (renumbered_replaceAll hvalue hf has).bind
    rintro as' _ ⟨has', rfl⟩
    rw [all_isNone_renumberPairs, map_getD_renumberPairs, Option.isNone_map,
      Option.getD_map (renumber ρ)]
    split
    · exact renumbersAny_none
    · exact (renumbers_apply (hh'.getD hh) has').some

private theorem renumbered_replaceAll {v : Variable} {value : Term}
    (hvalue : value.MadeOf .pure) {f g : Variable → Term → Engine Term}
    (hf : ∀ w b, b.MadeOf .pure → Renumbers ρ (f w b) (g (ρ.onVariable w) (b.renumber ρ))) :
    ∀ {ts : List Term}, MadeOfAll .pure ts → Renumbered ρ (replaceAll R f ts v value)
      (replaceAll R' g (renumberAll ρ ts) (ρ.onVariable v) (value.renumber ρ))
      fun ps qs => MadeOfAll .pure (ps.map fun p => p.2.getD p.1) ∧ qs = renumberPairs ρ ps
  | [], _ => by
    unfold replaceAll
    exact .pure ⟨trivial, rfl⟩
  | t :: ts, ⟨ht, hts⟩ => by
    unfold replaceAll
    rw [renumberAll]
    apply (renumbersAny_replace hvalue hf ht).bind
    rintro o _ ⟨ho, rfl⟩
    apply (renumbered_replaceAll hvalue hf hts).bind
    rintro ps _ ⟨hps, rfl⟩
    exact .pure ⟨⟨ho.getD ht, hps⟩, rfl⟩

end

/-- A binder and a body, and the same renumbered. -/
private abbrev RenumbersClosing (ρ : Renumbering) (x y : Engine (Variable × Term)) : Prop :=
  Renumbered ρ x y fun p q => p.2.MadeOf .pure ∧ q = (ρ.onVariable p.1, p.2.renumber ρ)

/-- A new variable in place of another one. -/
private theorem renumbersClosing_renamed {f g : Variable → Term → Engine Term}
    (hf : ∀ w b, b.MadeOf .pure → Renumbers ρ (f w b) (g (ρ.onVariable w) (b.renumber ρ)))
    (v : Variable) (ht : t.MadeOf .pure) :
    RenumbersClosing ρ
      (do
        let w ← Engine.freshVariable v.name
        return (w, (← replace R f t v (var w)).getD t))
      (do
        let w ← Engine.freshVariable (ρ.onVariable v).name
        return (w, (← replace R' g (t.renumber ρ) (ρ.onVariable v) (var w)).getD
          (t.renumber ρ))) := by
  rw [Renumbering.onVariable_name]
  apply (Engine.renumbered_freshVariable v.name).bind
  rintro w _ rfl
  have made : (var w).MadeOf .pure := trivial
  apply (renumbersAny_replace made hf ht).bind
  rintro o _ ⟨ho, rfl⟩
  exact .pure ⟨ho.getD ht, by rw [Option.getD_map (renumber ρ)]⟩

private theorem renumbersClosing_closeWithin (v : Variable) (depth : Nat) {t : Term}
    (ht : t.MadeOf .pure) :
    RenumbersClosing ρ (closeWithin R depth v t)
      (closeWithin R' depth (ρ.onVariable v) (t.renumber ρ)) := by
  have term {t : Term} (ht : t.MadeOf .pure) (x : Foreign) : t ≠ foreign x :=
    fun hx => by rw [hx] at ht; exact ht
  induction depth generalizing v t with
  | zero =>
    rw [closeWithin.eq_2 _ _ _ (term ht), closeWithin.eq_2 _ _ _ (term ht.renumber)]
    exact renumbersClosing_renamed (fun _ _ _ => .throw) v ht
  | succ depth ih =>
    rw [closeWithin.eq_3 _ _ _ _ (term ht), closeWithin.eq_3 _ _ _ _ (term ht.renumber)]
    refine renumbersClosing_renamed (fun u b hb => ?_) v ht
    apply (ih u hb).bind
    rintro ⟨w, b'⟩ _ ⟨hb', rfl⟩
    exact .pure ⟨hb', rfl⟩

/-- Abstracting a renumbered term makes the same lambda, renumbered. -/
theorem renumbers_abstract (v : Variable) (ht : t.MadeOf .pure) :
    Renumbers ρ (abstract R v t) (abstract R' (ρ.onVariable v) (t.renumber ρ)) := by
  unfold abstract close
  rw [rebuildDepth, rebuildDepth, lambdaDepth_renumber]
  apply (renumbersClosing_closeWithin v _ ht).bind
  rintro ⟨w, b⟩ _ ⟨hb, rfl⟩
  exact .pure ⟨hb, rfl⟩

/-- So does abstracting it over several variables. -/
theorem renumbers_abstractAll (ht : t.MadeOf .pure) : ∀ vs : List Variable,
    Renumbers ρ (abstractAll R vs t) (abstractAll R' (vs.map ρ.onVariable) (t.renumber ρ))
  | [] => .pure ⟨ht, rfl⟩
  | v :: vs => by
    rw [List.map_cons, abstractAll, abstractAll]
    apply (renumbers_abstractAll ht vs).bind
    rintro u _ ⟨hu, rfl⟩
    exact renumbers_abstract v hu

/-- An argument is put into a body. -/
theorem renumbers_instantiate (v : Variable) {b a : Term} (hb : b.MadeOf .pure)
    (ha : a.MadeOf .pure) : Renumbers ρ (instantiate R v b a)
      (instantiate R' (ρ.onVariable v) (b.renumber ρ) (a.renumber ρ)) := by
  unfold instantiate subst
  apply (renumbersAny_replace ha (fun w b hb => renumbers_abstract w hb) hb).bind
  rintro o _ ⟨ho, rfl⟩
  exact .pure ⟨ho.getD hb, Option.getD_map (renumber ρ) b o⟩

end Term

/-! ### Rules -/

namespace Native

open Term

private theorem renumbers_iterate {f : Term} (hf : f.MadeOf .pure) : ∀ (n : Nat) {x : Term},
    x.MadeOf .pure → Renumbers ρ (iterate R f x n) (iterate R' (f.renumber ρ) (x.renumber ρ) n)
  | 0, _, hx => .pure ⟨hx, rfl⟩
  | n + 1, _, hx => by
    unfold iterate
    apply (renumbers_apply hf (.cons hx .nil)).bind
    rintro u _ ⟨hu, rfl⟩
    exact renumbers_iterate hf n hu

private theorem demandTerms_of_madeOf {ts : List Term} (h : MadeOfAll .pure ts) :
    demandTerms ts = pure () := by
  rw [demandTerms, h.firstLiteral_eq_none]

/-- What is left of a rule after it has seen that its parts are terms. -/
private theorem renumbersAny_demandTerms {ts : List Term} (hts : MadeOfAll .pure ts)
    {x y : Engine (Option Term)} (h : RenumbersAny ρ x y) :
    RenumbersAny ρ (do demandTerms ts; x) (do demandTerms (renumberAll ρ ts); y) := by
  rw [demandTerms_of_madeOf hts, demandTerms_of_madeOf hts.renumberAll]
  exact h

/-- A rule makes the same of renumbered arguments. -/
theorem renumbersAny_contract {c : Native} (hc : c.isPure = true) {as : List Term}
    (has : MadeOfAll .pure as) :
    RenumbersAny ρ (c.contract R as) (c.contract R' (renumberAll ρ as)) := by
  unfold contract
  split
  · exact renumbersAny_some has.1
  · exact renumbersAny_some has.1
  · next x y z rest =>
    obtain ⟨hx, hy, hz, -⟩ := has
    refine renumbersAny_demandTerms (.cons hx (.cons hy .nil)) ?_
    apply (renumbers_apply hy (.cons hz .nil)).bind
    rintro yz _ ⟨hyz, rfl⟩
    exact (renumbers_apply hx (.cons hz (.cons hyz .nil))).some
  · next x y z rest =>
    obtain ⟨hx, hy, hz, -⟩ := has
    refine renumbersAny_demandTerms (.cons hx (.cons hy .nil)) ?_
    apply (renumbers_apply hy (.cons hz .nil)).bind
    rintro yz _ ⟨hyz, rfl⟩
    exact (renumbers_apply hx (.cons hyz .nil)).some
  · next x y z rest =>
    obtain ⟨hx, hy, hz, -⟩ := has
    exact renumbersAny_demandTerms (.cons hx .nil)
      (renumbers_apply hx (.cons hz (.cons hy .nil))).some
  · next x y rest =>
    obtain ⟨hx, hy, -⟩ := has
    exact renumbersAny_demandTerms (.cons hx .nil)
      (renumbers_apply hx (.cons hy (.cons hy .nil))).some
  · next n f x rest =>
    obtain ⟨hn, hf, hx, -⟩ := has
    refine renumbersAny_demandTerms (.cons hf (.cons hn .nil)) ?_
    apply (renumbers_apply hn (.cons hf (.cons hx .nil))).bind
    rintro nfx _ ⟨hnfx, rfl⟩
    exact (renumbers_apply hf (.cons hnfx .nil)).some
  · next n f x rest => exact (renumbers_iterate has.1 n has.2.1).some
  · cases hc
  · cases hc
  · cases hc
  · -- no rule matches, so some argument is missing, and stays missing
    have few : as.length < c.arity := by
      cases c <;> rcases as with _ | ⟨a, _ | ⟨b, _ | ⟨d, as⟩⟩⟩ <;> grind [arity]
    change RenumbersAny ρ (pure none) (c.contract R' (renumberAll ρ as))
    rw [contract_of_lt (by rwa [length_renumberAll])]
    exact renumbersAny_none

end Native

namespace Term

/-- The rule of a head makes the same of renumbered arguments. -/
theorem renumbersAny_reduce {h : Term} {as : List Term} (hh : h.MadeOf .pure)
    (has : MadeOfAll .pure as) :
    RenumbersAny ρ (reduce R h as) (reduce R' (h.renumber ρ) (renumberAll ρ as)) := by
  have rest {u : Term} (hu : u.MadeOf .pure) (n : Nat) :
      RenumbersAny ρ (do return some (← apply R u (as.drop n)))
        (do return some (← apply R' (u.renumber ρ) ((renumberAll ρ as).drop n))) := by
    have given : MadeOfAll .pure (as.drop n) :=
      madeOfAll_iff.mpr fun a ha => madeOfAll_iff.mp has a (List.mem_of_mem_drop ha)
    rw [← renumberAll_drop]
    exact (renumbers_apply hu given).some
  unfold reduce
  cases h with
  | native c =>
    apply (Native.renumbersAny_contract hh has).bind
    rintro o _ ⟨ho, rfl⟩
    cases o with
    | none => exact renumbersAny_none
    | some t =>
      have ht := ho t rfl
      cases t with
      | foreign x => exact ht.elim
      | _ => exact rest ht c.arity
  | lam v b =>
    cases as with
    | nil => exact renumbersAny_none
    | cons a as =>
      apply (renumbers_instantiate (b := b) v hh has.1).bind
      rintro u _ ⟨hu, rfl⟩
      exact rest hu 1
  | named info d =>
    rw [renumber]
    dsimp only
    rw [length_renumberAll]
    apply (Engine.renumbered_bound info.arity).bind
    rintro n _ rfl
    split
    · exact renumbersAny_none
    · exact rest hh.2 0
  | _ => exact renumbersAny_none

/-! ### Steps -/

/-- A step renumbered. -/
def Stepped.renumber (ρ : Renumbering) (r : Stepped) : Stepped := ⟨r.term.renumber ρ, r.cost⟩

/-- A step in a list renumbered. -/
def SteppedAmong.renumber (ρ : Renumbering) (r : SteppedAmong) : SteppedAmong :=
  ⟨renumberAll ρ r.terms, r.cost⟩

mutual

/-- A renumbered term takes the same step. -/
theorem renumbered_step : ∀ {t : Term}, t.MadeOf .pure →
    Renumbered ρ (step R t) (step R' (t.renumber ρ)) fun o o' => o' = o.map (·.renumber ρ)
  | var v, _ => by
    unfold step
    exact .pure rfl
  | native c, _ => by
    unfold step
    exact .pure rfl
  | foreign x, _ => by
    unfold step
    exact .pure rfl
  | lam v b, _ => by
    unfold step
    exact .pure rfl
  | named info d, _ => by
    unfold step
    refine .pure ?_
    split <;> rfl
  | app n h as, ⟨_, hh, has⟩ => by
    unfold step
    rw [renumber]
    apply (Engine.renumbered_isSettled n).bind
    rintro known _ rfl
    split
    · exact .pure rfl
    · apply (renumbersAny_reduce hh has).bind
      rintro o _ ⟨-, rfl⟩
      cases o with
      | some u => exact .pure rfl
      | none =>
        apply ((renumbered_step hh).ends (ends_step (Kinds.closed_pure R) hh)).bind
        rintro o _ ⟨rfl, made⟩
        cases o with
        | some h' =>
          apply (renumbers_apply (made h' rfl).1 has).bind
          rintro u _ ⟨-, rfl⟩
          exact .pure rfl
        | none =>
          apply ((renumbered_stepAmong has).ends (ends_stepAmong (Kinds.closed_pure R) has)).bind
          rintro o _ ⟨rfl, made⟩
          cases o with
          | some as' =>
            apply (renumbers_apply hh (made as' rfl).1).bind
            rintro u _ ⟨-, rfl⟩
            exact .pure rfl
          | none =>
            apply (Engine.renumbered_settle n).bind
            rintro _ _ -
            exact .pure rfl

theorem renumbered_stepAmong : ∀ {as : List Term}, MadeOfAll .pure as →
    Renumbered ρ (stepAmong R as) (stepAmong R' (renumberAll ρ as))
      fun o o' => o' = o.map (·.renumber ρ)
  | [], _ => by
    unfold stepAmong
    exact .pure rfl
  | a :: as, ⟨ha, has⟩ => by
    unfold stepAmong
    rw [renumberAll]
    apply (renumbered_step ha).bind
    rintro o _ rfl
    cases o with
    | some a' => exact .pure rfl
    | none =>
      apply (renumbered_stepAmong has).bind
      rintro o _ rfl
      cases o <;> exact .pure rfl

end

end Term

/-! ### Runs -/

/-- Where a renumbered run stands. -/
structure Stage.Renumbered (ρ : Renumbering) (x x' : Stage) : Prop where
  term : x'.term = x.term.renumber ρ
  steps : x'.steps = x.steps
  store : ρ.Matches x.store x'.store

variable {budget : Int} {x x' y : Stage} {l : List Run}

/-- A renumbered run makes the same rounds. -/
theorem Trail.exists_renumbered (h : Trail R budget x l y) (made : x.term.MadeOf .pure)
    (hx : x.Renumbered ρ x') (R' : Rules) :
    ∃ l' y', Trail R' budget x' l' y' ∧ y.Renumbered ρ y' := by
  induction h generalizing x' with
  | here => exact ⟨[], x', .here, hx⟩
  | @round x y r s l hb hstep _ ih =>
    have same : Renumbered ρ (x.term.step R) ((x.term.renumber ρ).step R') _ :=
      Term.renumbered_step made
    obtain ⟨_, s', hstep', rfl, hs⟩ := same.exists_of_ok hx.store hstep
    have next : (x.after r s).Renumbered ρ (x'.after (r.renumber ρ) s') :=
      ⟨rfl, congrArg (· + r.cost) hx.steps, hs⟩
    obtain ⟨l', y', trail, hy⟩ :=
      ih ((Term.ends_step (Kinds.closed_pure R) made).of_ok hstep r rfl).1 next
    refine ⟨_, y', .round (hx.steps ▸ hb) ?_ trail, hy⟩
    rw [hx.term]
    exact hstep'

/-- It goes no further from the same stage. -/
theorem Stage.Last.renumbered (h : x.Last R budget) (made : x.term.MadeOf .pure)
    (hx : x.Renumbered ρ x') (R' : Rules) : x'.Last R' budget := by
  intro r' s' hstep'
  rw [hx.term] at hstep'
  obtain ⟨o, s, hstep, ho, -⟩ :=
    (Term.renumbered_step (R := R) made).exists_of_ok_renumbered hx.store hstep'
  obtain ⟨r, rfl, -⟩ := Option.map_eq_some_iff.mp ho.symm
  rw [hx.steps]
  exact h r s hstep

/-- What a run ends with, renumbered. -/
def Run.renumber (ρ : Renumbering) (out : Run) : Run :=
  { out with term := out.term.renumber ρ }

namespace Run

@[simp] theorem term_renumber (out : Run) : (out.renumber ρ).term = out.term.renumber ρ := rfl

@[simp] theorem steps_renumber (out : Run) : (out.renumber ρ).steps = out.steps := rfl

@[simp] theorem final_renumber (out : Run) : (out.renumber ρ).final = out.final := rfl

end Run

namespace Term

private theorem renumbered_runFrom (ht : t.MadeOf .pure) (budget : Int) (steps patience : Nat) :
    Renumbered ρ (fun s => runFrom R budget t steps patience s)
      (fun s => runFrom R' budget (t.renumber ρ) steps patience s)
      fun out out' => out.term.MadeOf .pure ∧ out' = out.renumber ρ := by
  intro s s' hs
  have hK := Kinds.closed_pure
  obtain ⟨l, y, trail, last⟩ := Trail.exists_last (hK R) budget ⟨t, steps, s⟩ ht
  have start : Stage.Renumbered ρ ⟨t, steps, s⟩ ⟨t.renumber ρ, steps, s'⟩ := ⟨rfl, rfl, hs⟩
  obtain ⟨l', y', trail', hy⟩ := trail.exists_renumbered ht start R'
  have made := trail.madeOf (hK R) ht
  obtain ⟨left, ran⟩ := trail.exists_runFrom (hK R) ht patience
  obtain ⟨left', ran'⟩ := trail'.exists_runFrom (hK R') ht.renumber patience
  rw [last.runFrom_eq] at ran
  rw [(last.renumbered made hy R').runFrom_eq] at ran'
  dsimp only at ran ran' ⊢
  rw [ran, ran', hy.term, hy.steps]
  -- both go no further, and look once more whether there is a step
  have same : Renumbered ρ (y.term.step R) ((y.term.renumber ρ).step R') _ := renumbered_step made
  have outcome := same _ _ hy.store
  generalize y.term.step R y.store = r at outcome ⊢
  generalize (y.term.renumber ρ).step R' y'.store = r' at outcome ⊢
  cases outcome with
  | ok ho hs' =>
    subst ho
    exact .ok ⟨made, by rw [Option.isNone_map]; rfl⟩ hs'
  | error => exact .error

/-- A renumbered run takes the same steps and ends with the same term, renumbered. -/
theorem renumbered_run (ht : t.MadeOf .pure) (budget : Amount) (strict : Bool) :
    Renumbered ρ (run R budget t [] strict) (run R' budget (t.renumber ρ) [] strict)
      fun out out' => out.term.MadeOf .pure ∧ out' = out.renumber ρ := by
  unfold run
  rw [apply_nil, apply_nil, pure_bind, pure_bind]
  apply (Engine.renumbered_bound budget).bind
  rintro _ _ rfl
  apply (renumbered_runFrom ht _ 0 patience).bind
  rintro out _ ⟨made, rfl⟩
  rw [Run.final_renumber]
  split
  · intro s s' _
    exact .error
  · exact .pure ⟨made, rfl⟩

end Term

end Combinatory
