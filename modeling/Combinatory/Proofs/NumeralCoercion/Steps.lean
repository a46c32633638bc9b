import Combinatory.Numeral
import Combinatory.Proofs.Ending

/-!
# Steps that ask for a number

Building a term, replacing a variable and abstracting never report a spent budget, and no rule of a
combinator does but the one that evaluates its argument to a numeral. So a step reports a spent
budget only where it comes to fire that combinator, and the report is the one of the evaluation
(`Term.relays_step`). The store is threaded all the way: the evaluation starts in the store that the
step has when it comes there, and the step ends in the store in which the evaluation fails.
-/

namespace Combinatory

open Engine (Ends)

variable {R : Rules} {s s' s₁ : Store} {e : Failure}

/-! ### Failures that are no report of a spent budget -/

/-- Whether a computation never reports a spent budget. -/
abbrev Engine.Spares {α : Type} (x : Engine α) : Prop :=
  Ends x (fun e => e.isBudget = false) fun _ => True

namespace Engine.Spares

variable {α β : Type} {x : Engine α}

protected theorem pure (a : α) : Spares (Pure.pure a) := Ends.pure trivial

protected theorem bind {f : α → Engine β} (hx : Spares x) (hf : ∀ a, Spares (f a)) :
    Spares (x >>= f) :=
  Ends.bind hx fun a _ => hf a

end Engine.Spares

/-- What is reported is the failure itself, or that it cannot be written. -/
theorem Failure.reported_eq (e : Failure) :
    e.reported = e ∨ ∃ typeName, e.reported = .notRenderable typeName := by
  unfold reported
  split
  · exact .inr ⟨_, rfl⟩
  · exact .inl rfl

theorem Failure.isBudget_applyToNonTerm (t : Term) (l : Literal) :
    (applyToNonTerm t l).isBudget = false := by
  obtain h | ⟨_, h⟩ := (applyToNonTerm t l).reported_eq <;> rw [isBudget, h]

theorem Failure.isBudget_notANumeral (t : Term) : (notANumeral t).isBudget = false := by
  obtain h | ⟨_, h⟩ := (notANumeral t).reported_eq <;> rw [isBudget, h]

/-- Whether no hook replaces anything, and no rule of a user combinator reports a spent budget. -/
structure Rules.Sparing (R : Rules) : Prop where
  hookless : R.hookless = true
  contract : ∀ u as, (R.contract u as).Spares

theorem Rules.sparing_plain : ∀ depth, (Rules.plain depth).Sparing
  | 0 => ⟨rfl, fun _ _ => .throw rfl⟩
  | _ + 1 => ⟨rfl, fun _ _ => .throw rfl⟩

open Engine (Spares)

theorem Engine.spares_bound (a : Amount) : (Engine.bound a).Spares := by
  unfold Engine.bound
  split
  · exact .pure _
  · exact .throw rfl

theorem Engine.spares_whole (a : Amount) : (Engine.whole a).Spares := by
  unfold Engine.whole
  split
  · exact .pure _
  · exact .throw rfl

/-- Comparing an amount changes nothing of the store. -/
theorem Engine.store_eq_of_bound {a : Amount} {n : Int} (h : Engine.bound a s = .ok n s') :
    s' = s := by
  unfold Engine.bound at h
  cases hb : a.bound? with
  | none =>
    rw [hb] at h
    cases h
  | some m =>
    rw [hb] at h
    cases h
    rfl

theorem Engine.store_eq_of_whole {a : Amount} {n : Int} (h : Engine.whole a s = .ok n s') :
    s' = s := by
  unfold Engine.whole at h
  cases hb : a.whole? with
  | none =>
    rw [hb] at h
    cases h
  | some m =>
    rw [hb] at h
    cases h
    rfl

theorem Native.spares_replacement (hR : R.Sparing) (c : Native) (a : Term) :
    (c.replacement R a).Spares := by
  unfold replacement
  split
  · split
    · split
      · exact .pure _
      · exact .throw rfl
    · exact .pure _
  · exact .throw rfl
  · next u =>
    split
    · rw [R.replacement_none hR.hookless]
      exact .pure _
    · exact .pure _
  · exact .pure _

namespace Term

/-! ### Building -/

theorem spares_extend (hR : R.Sparing) : ∀ (t : Term) (as : List Term), (extend R t as).Spares
  | t, [] => by
    unfold extend
    exact .pure t
  | t, a :: as => by
    unfold extend
    split
    · exact fun _ => trivial
    · next c =>
      apply (Native.spares_replacement hR c a).bind
      intro o
      cases o with
      | some r => exact spares_extend hR r as
      | none => exact fun _ => trivial
    · exact fun _ => trivial

theorem spares_apply (hR : R.Sparing) (t : Term) (as : List Term) : (apply R t as).Spares := by
  unfold apply
  split
  · exact .throw (Failure.isBudget_applyToNonTerm t _)
  · exact spares_extend hR t as

theorem spares_some_apply (hR : R.Sparing) (t : Term) (as : List Term) :
    (do return some (← apply R t as) : Engine (Option Term)).Spares :=
  (spares_apply hR t as).bind fun _ => .pure _

mutual

theorem spares_replace (hR : R.Sparing) {reclose : Variable → Term → Engine Term}
    (hre : ∀ w b, (reclose w b).Spares) (v : Variable) (value : Term) :
    ∀ t : Term, (replace R reclose t v value).Spares
  | var w => by
    unfold replace
    exact .pure _
  | native c => by
    unfold replace
    exact .pure _
  | foreign x => by
    unfold replace
    exact .pure _
  | named info d => by
    unfold replace
    exact spares_replace hR hre v value d
  | lam w b => by
    unfold replace
    split
    · exact .pure _
    · apply (spares_replace hR hre v value b).bind
      intro o
      cases o with
      | some b' => exact (hre w b').bind fun _ => .pure _
      | none => exact .pure _
  | app n h as => by
    unfold replace
    apply (spares_replace hR hre v value h).bind
    intro h'
    apply (spares_replaceAll hR hre v value as).bind
    intro as'
    split
    · exact .pure _
    · exact (spares_apply hR _ _).bind fun _ => .pure _

theorem spares_replaceAll (hR : R.Sparing) {reclose : Variable → Term → Engine Term}
    (hre : ∀ w b, (reclose w b).Spares) (v : Variable) (value : Term) :
    ∀ ts : List Term, (replaceAll R reclose ts v value).Spares
  | [] => by
    unfold replaceAll
    exact .pure _
  | t :: ts => by
    unfold replaceAll
    apply (spares_replace hR hre v value t).bind
    intro t'
    exact (spares_replaceAll hR hre v value ts).bind fun _ => .pure _

end

theorem spares_closeWithin (hR : R.Sparing) (depth : Nat) (v : Variable) (b : Term) :
    (closeWithin R depth v b).Spares := by
  have fresh (v : Variable) : (Engine.freshVariable v.name).Spares := fun _ => trivial
  induction depth generalizing v b with
  | zero =>
    unfold closeWithin
    split
    · exact .throw rfl
    · apply (fresh _).bind
      intro w
      exact (spares_replace hR (fun _ _ => .throw rfl) _ _ _).bind fun _ => .pure _
    · next h _ => cases h
  | succ depth ih =>
    unfold closeWithin
    split
    · exact .throw rfl
    · next h _ => cases h
    · next h _ =>
      cases h
      apply (fresh _).bind
      intro w
      exact (spares_replace hR (fun u c => (ih u c).bind fun _ => .pure _) _ _ _).bind
        fun _ => .pure _

theorem spares_abstract (hR : R.Sparing) (v : Variable) (b : Term) : (abstract R v b).Spares :=
  (spares_closeWithin hR _ v b).bind fun _ => .pure _

theorem spares_abstractAll (hR : R.Sparing) (vs : List Variable) (b : Term) :
    (abstractAll R vs b).Spares := by
  induction vs with
  | nil =>
    unfold abstractAll
    exact .pure b
  | cons v vs ih =>
    unfold abstractAll
    exact ih.bind fun _ => spares_abstract hR v _

theorem spares_instantiate (hR : R.Sparing) (v : Variable) (b a : Term) :
    (instantiate R v b a).Spares :=
  (spares_replace hR (spares_abstract hR) v a b).bind fun _ => .pure _

end Term

/-! ### Steps -/

namespace Term

mutual

/-- Whether a step of a term over a store comes to fire the combinator that asks for the number of
`u`, over the store `s'`: it heads an application that is not known to be in normal form, and what
the step has tried before does nothing. -/
inductive Asks (R : Rules) : Term → Store → Term → Store → Prop where
  | here {n : Nat} {u : Term} {as : List Term} {s : Store} (hn : n ∉ s.settled) :
    Asks R (app n (native .toNumeral) (u :: as)) s u s
  | head {n : Nat} {h u : Term} {as : List Term} {s s₁ s' : Store} (hn : n ∉ s.settled)
    (hr : reduce R h as s = .ok none s₁) (hu : Asks R h s₁ u s') : Asks R (app n h as) s u s'
  | arg {n : Nat} {h u : Term} {as : List Term} {s s₁ s₂ s' : Store} (hn : n ∉ s.settled)
    (hr : reduce R h as s = .ok none s₁) (hh : step R h s₁ = .ok none s₂)
    (hu : AsksAmong R as s₂ u s') : Asks R (app n h as) s u s'

/-- Whether a step of the first term of a list that has one comes to do so. -/
inductive AsksAmong (R : Rules) : List Term → Store → Term → Store → Prop where
  | here {a u : Term} {as : List Term} {s s' : Store} (hu : Asks R a s u s') :
    AsksAmong R (a :: as) s u s'
  | there {a u : Term} {as : List Term} {s s₁ s' : Store} (ha : step R a s = .ok none s₁)
    (hu : AsksAmong R as s₁ u s') : AsksAmong R (a :: as) s u s'

end

end Term

/-- Whether a computation over a store reports a spent budget only as the failure of an evaluation
that meets a condition, over the store that it has come to. -/
def Engine.Relays {α : Type} (R : Rules) (P : Term → Store → Prop) (x : Engine α) (s : Store) :
    Prop :=
  ∀ e s', x s = .error e s' → e.isBudget = true →
    ∃ u s₁, P u s₁ ∧ R.evaluate u s₁ = .error e s'

namespace Engine

variable {α β : Type} {x : Engine α} {P Q : Term → Store → Prop}

/-- What never reports a spent budget has nothing to relay. -/
theorem Spares.relays (hx : x.Spares) : Relays R P x s := by
  intro e s' he hb
  rw [hx.of_error he] at hb
  cases hb

theorem Relays.mono (hx : Relays R P x s) (h : ∀ u s₁, P u s₁ → Q u s₁) : Relays R Q x s := by
  intro e s' he hb
  obtain ⟨u, s₁, hu, hr⟩ := hx e s' he hb
  exact ⟨u, s₁, h u s₁ hu, hr⟩

protected theorem Relays.pure (a : α) : Relays R P (Pure.pure a) s := nofun

protected theorem Relays.throw (he : e.isBudget = false) :
    Relays R P (MonadExcept.throw e : Engine α) s :=
  Spares.relays (.throw he)

/-- A sequence relays what its first part does, and its second part over the store after it. -/
protected theorem Relays.bind {f : α → Engine β} (hx : Relays R P x s)
    (hf : ∀ a s₁, x s = .ok a s₁ → Relays R P (f a) s₁) : Relays R P (x >>= f) s := by
  intro e s' he
  cases hr : x s with
  | ok a s₁ =>
    rw [bind_of_ok hr] at he
    exact hf a s₁ hr e s' he
  | error e₁ s₁ =>
    rw [bind_of_error hr] at he
    cases he
    exact hx e s' hr

end Engine

open Engine (Relays)

namespace Native

theorem spares_iterate (hR : R.Sparing) (f : Term) (n : Nat) (x : Term) :
    (iterate R f x n).Spares := by
  induction n generalizing x with
  | zero =>
    unfold iterate
    exact .pure x
  | succ n ih =>
    unfold iterate
    exact (Term.spares_apply hR f _).bind fun _ => ih _

theorem spares_demandTerms (parts : List Term) : (demandTerms parts).Spares := by
  unfold demandTerms
  split
  · exact .throw rfl
  · exact .pure _

/-- A rule reports a spent budget only if it evaluates its first argument. -/
theorem relays_contract (hR : R.Sparing) (c : Native) (as : List Term) (s : Store) :
    Relays R (fun u s₁ => c = .toNumeral ∧ as.head? = some u ∧ s₁ = s) (c.contract R as) s := by
  have demanded (parts : List Term) {x : Engine (Option Term)} (hx : x.Spares) :
      (do demandTerms parts; x).Spares :=
    (spares_demandTerms parts).bind fun _ => hx
  have applied := Term.spares_some_apply hR
  unfold contract
  split
  · exact .pure _
  · exact .pure _
  · exact (demanded _ ((Term.spares_apply hR _ _).bind fun _ => applied _ _)).relays
  · exact (demanded _ ((Term.spares_apply hR _ _).bind fun _ => applied _ _)).relays
  · exact (demanded _ (applied _ _)).relays
  · exact (demanded _ (applied _ _)).relays
  · exact (demanded _ ((Term.spares_apply hR _ _).bind fun _ => applied _ _)).relays
  · exact ((spares_iterate hR _ _ _).bind fun _ => .pure _).relays
  · next x as =>
    have evaluated : Relays R
        (fun u s₁ => toNumeral = .toNumeral ∧ (x :: as).head? = some u ∧ s₁ = s) (R.evaluate x) s :=
      fun e s' he _ => ⟨x, s, ⟨rfl, rfl, rfl⟩, he⟩
    exact evaluated.bind fun _ _ _ => .pure _
  · exact .pure _
  · split
    · exact .pure _
    · exact ((hR.contract _ _).bind fun _ => .pure _).relays
  · exact .pure _

end Native

namespace Term

theorem relays_reduce (hR : R.Sparing) (h : Term) (as : List Term) (s : Store) :
    Relays R (fun u s₁ => h = native .toNumeral ∧ as.head? = some u ∧ s₁ = s)
      (reduce R h as) s := by
  have applied := spares_some_apply hR
  unfold reduce
  split
  · next c =>
    have fired := (Native.relays_contract hR c as s).mono
      (Q := fun u s₁ => native c = native .toNumeral ∧ as.head? = some u ∧ s₁ = s)
      fun u s₁ hu => ⟨congrArg native hu.1, hu.2⟩
    refine fired.bind fun o s₁ _ => ?_
    split
    · exact .throw rfl
    · exact (applied _ _).relays
    · exact .pure _
  · next v b =>
    cases as with
    | nil => exact .pure _
    | cons a as => exact ((spares_instantiate hR v b a).bind fun _ => applied _ _).relays
  · next info d =>
    refine (Engine.spares_bound info.arity).relays.bind fun m s₁ _ => ?_
    split
    · exact .pure _
    · exact (applied _ _).relays
  · exact .pure _

mutual

/-- A step reports a spent budget only if it comes to fire the combinator that asks for a number,
and the evaluation fails with the report. -/
theorem relays_step (hR : R.Sparing) : ∀ (t : Term) (s : Store), Relays R (t.Asks R s) (step R t) s
  | var _, _ | native _, _ | foreign _, _ | lam _ _, _ | named _ _, _ => by
    unfold step
    exact .pure _
  | app n h as, s => by
    unfold step
    have looked : (Engine.isSettled n).Spares := Engine.ends_isSettled n
    refine looked.relays.bind fun known s₀ hknown => ?_
    cases hknown
    split
    · exact .pure _
    · next hn =>
      have unsettled : n ∉ s.settled := fun h => hn (Std.HashSet.contains_iff_mem.mpr h)
      have fired := (relays_reduce hR h as s).mono (Q := (app n h as).Asks R s) (by
        rintro u s₁ ⟨rfl, hu, rfl⟩
        obtain ⟨bs, rfl⟩ := List.head?_eq_some_iff.mp hu
        exact .here unsettled)
      refine fired.bind fun o s₁ hr => ?_
      cases o with
      | some u => exact .pure _
      | none =>
        refine ((relays_step hR h s₁).mono fun u s₂ => .head unsettled hr).bind fun o s₂ hh => ?_
        cases o with
        | some h' => exact ((spares_apply hR _ _).bind fun _ => .pure _).relays
        | none =>
          refine ((relays_stepAmong hR as s₂).mono fun u s₃ => .arg unsettled hr hh).bind
            fun o s₃ _ => ?_
          cases o with
          | some as' => exact ((spares_apply hR _ _).bind fun _ => .pure _).relays
          | none => exact Engine.Spares.relays fun _ => trivial

theorem relays_stepAmong (hR : R.Sparing) : ∀ (as : List Term) (s : Store),
    Relays R (AsksAmong R as s) (stepAmong R as) s
  | [], _ => by
    unfold stepAmong
    exact .pure _
  | a :: as, s => by
    unfold stepAmong
    refine ((relays_step hR a s).mono fun u s₁ => .here).bind fun o s₁ ha => ?_
    cases o with
    | some a' => exact .pure _
    | none =>
      refine ((relays_stepAmong hR as s₁).mono fun u s₂ => .there ha).bind fun o s₂ _ => ?_
      cases o with
      | some as' => exact .pure _
      | none => exact .pure _

end

variable {u : Term}

mutual

/-- Conversely, an evaluation that fails makes the step fail that comes to it. -/
theorem step_error_of_asks (he : R.evaluate u s₁ = .error e s') : ∀ {t : Term} {s : Store},
    t.Asks R s u s₁ → step R t s = .error e s'
  | app _ _ (_ :: as), _, .here hn => by
    have contracted : Native.toNumeral.contract R (u :: as) s₁ = .error e s' :=
      Engine.bind_of_error he
    have reduced : reduce R (native .toNumeral) (u :: as) s₁ = .error e s' :=
      Engine.bind_of_error contracted
    rw [step, Engine.bind_of_ok (Engine.isSettled_of_not_mem hn), if_neg Bool.false_ne_true,
      Engine.bind_of_error reduced]
  | app _ _ _, _, .head hn hr hu => by
    rw [step, Engine.bind_of_ok (Engine.isSettled_of_not_mem hn), if_neg Bool.false_ne_true,
      Engine.bind_of_ok hr]
    exact Engine.bind_of_error (step_error_of_asks he hu)
  | app _ _ _, _, .arg hn hr hh hu => by
    rw [step, Engine.bind_of_ok (Engine.isSettled_of_not_mem hn), if_neg Bool.false_ne_true,
      Engine.bind_of_ok hr]
    exact (Engine.bind_of_ok hh).trans (Engine.bind_of_error (stepAmong_error_of_asks he hu))

theorem stepAmong_error_of_asks (he : R.evaluate u s₁ = .error e s') : ∀ {ts : List Term}
    {s : Store}, AsksAmong R ts s u s₁ → stepAmong R ts s = .error e s'
  | _ :: _, _, .here hu => by
    rw [stepAmong]
    exact Engine.bind_of_error (step_error_of_asks he hu)
  | _ :: _, _, .there ha hu => by
    rw [stepAmong, Engine.bind_of_ok ha]
    exact Engine.bind_of_error (stepAmong_error_of_asks he hu)

end

end Term

end Combinatory
