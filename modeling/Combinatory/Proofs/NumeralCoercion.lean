import Combinatory.Proofs.Assembly
import Combinatory.Proofs.Combination.Runs
import Combinatory.Proofs.Ending.Canonical
import Combinatory.Proofs.NumeralCoercion.Steps

/-!
# Numerals asked for in the middle of a run

The combinator that evaluates its argument to a numeral does so by a strict run, which has a budget
of its own and fails when that is spent. Nothing else that happens in a step can report a spent
budget. So where a run that is not strict, a walk or a search for a canonical form fails with such a
report, it has come to a term in which that combinator fires, over the store that it had there, and
the failure is the one of the evaluation (`Term.spent_of_asked`). Without that combinator there is
none.
-/

namespace Combinatory

open Engine (Ends Relays Spares)
open Relation (ReflTransGen)

variable {R : Rules}

namespace Term

/-! ### Runs, walks and searches -/

/-- Whether a step leads from a term and a store to others. -/
def StepsOn (R : Rules) (p q : Term × Store) : Prop :=
  ∃ r, p.1.step R p.2 = .ok (some r) q.2 ∧ r.term = q.1

/-- Whether a search for a canonical form comes from a term and a store to others: by a step; by one
probe more, where there is no step; or, where the search for the form of an application ends without
one, from the application to its front part, and then from there to its last part, when the best has
been made of the front part. -/
inductive SearchedOn (R : Rules) (limits : Budget) : Term × Store → Term × Store → Prop where
  | step {p q : Term × Store} (h : StepsOn R p q) : SearchedOn R limits p q
  | feed {t t' : Term} {v : Variable} {name : String} {s s₁ s₂ s' : Store}
    (hidle : t.step R s = .ok none s₁) (hv : Engine.freshVariable name s₁ = .ok v s₂)
    (h : t.apply R [var v] s₂ = .ok t' s') : SearchedOn R limits (t, s) (t', s')
  | front {n k : Nat} {h front last : Term} {as : List Term} {s s₁ s' : Store}
    (hnone : search R limits (app n h as) s = .ok (none, k) s₁)
    (hs : split R h as s₁ = .ok (front, last) s') : SearchedOn R limits (app n h as, s) (front, s')
  | last {n k p : Nat} {h front last : Term} {as : List Term} {o : Option Term}
    {s s₁ s₂ s' : Store} (hnone : search R limits (app n h as) s = .ok (none, k) s₁)
    (hs : split R h as s₁ = .ok (front, last) s₂)
    (hf : best R limits front (guess R limits front p) s₂ = .ok o s') :
    SearchedOn R limits (app n h as, s) (last, s')

/-- Whether some moves lead from a term and a store to where the number of another term is asked
for. -/
def AsksAfter (R : Rules) (G : Term × Store → Term × Store → Prop) (p : Term × Store) (u : Term)
    (s' : Store) : Prop :=
  ∃ q, ReflTransGen G p q ∧ q.1.Asks R q.2 u s'

variable {G : Term × Store → Term × Store → Prop} {p q : Term × Store} {t u : Term}
  {s s' : Store} {e : Failure}

theorem AsksAfter.of_asks (h : t.Asks R s u s') : AsksAfter R G (t, s) u s' := ⟨(t, s), .refl, h⟩

/-- What is asked for after more moves. -/
theorem AsksAfter.trans (h : ReflTransGen G p q) (hu : AsksAfter R G q u s') :
    AsksAfter R G p u s' := by
  obtain ⟨q', hmoves, hasks⟩ := hu
  exact ⟨q', h.trans hmoves, hasks⟩

theorem AsksAfter.mono {G' : Term × Store → Term × Store → Prop} (hG : ∀ p q, G p q → G' p q)
    (h : AsksAfter R G p u s') : AsksAfter R G' p u s' := by
  obtain ⟨q, hmoves, hasks⟩ := h
  exact ⟨q, hmoves.lift id hG, hasks⟩

/-- A run goes on by steps, and reports a spent budget only if it comes to a term that asks for a
number. Here the budget of the run itself is reported by the result. -/
theorem relays_runFrom (hR : R.Sparing) (budget : Int) (t : Term) (steps patience : Nat)
    (s : Store) :
    Relays R (AsksAfter R (StepsOn R) (t, s)) (fun s => runFrom R budget t steps patience s) s := by
  -- The computation is a constant here, so that the induction may change the store it runs over.
  suffices h : Relays R (AsksAfter R (StepsOn R) (t, s))
      (fun _ => runFrom R budget t steps patience s) s from h
  fun_induction runFrom R budget t steps patience s with
  | case1 t steps patience s hb e s₁ hstep
  | case6 t steps patience s hb e s₁ hstep =>
    rintro _ _ ⟨⟩
    exact (relays_step hR t s).mono (fun u s₂ => .of_asks) e s₁ hstep
  | case2 t steps patience s hb s₁ hstep
  | case7 t steps patience s hb o s₁ hstep => rintro _ _ ⟨⟩
  | case4 t steps patience s hb r s₁ hstep =>
    rintro _ _ ⟨⟩ hb
    cases hb
  | case3 t steps patience s hb r s₁ hstep hc hg ih
  | case5 t steps patience s hb r s₁ hstep hc ih =>
    have first : ReflTransGen (StepsOn R) (t, s) (r.term, s₁) := .single ⟨r, hstep, rfl⟩
    exact ih.mono fun u s₂ => .trans first

/-- A run that ends has come by steps to a term that has none. -/
theorem stepsOn_of_runFrom {budget : Int} {steps patience : Nat} {out : Run}
    (h : runFrom R budget t steps patience s = .ok out s') (hfinal : out.final = true) :
    ∃ s₁, ReflTransGen (StepsOn R) (t, s) (out.term, s₁) ∧ out.term.step R s₁ = .ok none s' := by
  fun_induction runFrom R budget t steps patience s with
  | case1 t steps patience s hb e s₁ hstep => cases h
  | case6 t steps patience s hb e s₁ hstep => cases h
  | case4 t steps patience s hb r s₁ hstep => cases h
  | case2 t steps patience s hb s₁ hstep =>
    cases h
    exact ⟨s, .refl, hstep⟩
  | case7 t steps patience s hb o s₁ hstep =>
    cases h
    obtain rfl : o = none := Option.isNone_iff_eq_none.mp hfinal
    exact ⟨s, .refl, hstep⟩
  | case3 t steps patience s hb r s₁ hstep hc hg ih
  | case5 t steps patience s hb r s₁ hstep hc ih =>
    obtain ⟨s₂, hsteps, hidle⟩ := ih h
    exact ⟨s₂, .head ⟨r, hstep, rfl⟩ hsteps, hidle⟩

/-- A run that is not strict, on no more arguments. -/
theorem relays_run (hR : R.Sparing) (budget : Amount) (t : Term) (s : Store) :
    Relays R (AsksAfter R (StepsOn R) (t, s)) (run R budget t [] false) s := by
  unfold run
  rw [apply_nil, pure_bind]
  refine (Engine.spares_bound budget).relays.bind fun bound s₁ hbound => ?_
  obtain rfl := Engine.store_eq_of_bound hbound
  exact (relays_runFrom hR bound t 0 patience s₁).bind fun out s₂ _ => .pure _

end Term

namespace Walk

open Term (AsksAfter StepsOn)

variable {budget : Option Amount} {w w' : Walk} {s s' : Store} {e : Failure}

theorem spares_allows (budget : Option Amount) (steps : Nat) : (allows budget steps).Spares := by
  unfold allows
  split
  · exact .pure true
  · exact (Engine.spares_bound _).bind fun _ => .pure _

theorem store_eq_of_allows {steps : Nat} {b : Bool} (h : allows budget steps s = .ok b s') :
    s' = s := by
  unfold allows at h
  cases budget with
  | none =>
    cases h
    rfl
  | some n =>
    obtain ⟨m, s₁, hm, h⟩ := Engine.bind_ok_iff.mp h
    cases h
    exact Engine.store_eq_of_bound hm

/-- What is shown next is found by a step. -/
theorem relays_next (hR : R.Sparing) (budget : Option Amount) (w : Walk) (s : Store) :
    Relays R (AsksAfter R (StepsOn R) (w.term, s)) (next R budget w) s := by
  unfold next
  split
  · exact .pure _
  refine (spares_allows budget w.steps).relays.bind fun b s₁ hb => ?_
  obtain rfl := store_eq_of_allows hb
  split
  · exact .pure _
  refine ((Term.relays_step hR w.term s₁).mono fun u s₂ => .of_asks).bind fun o s₂ _ => ?_
  cases o with
  | none => exact .pure _
  | some r => exact .pure _

/-- After the last term nothing fails. -/
theorem finished_of_error (h : next R budget w s = .error e s') : w.finished = false := by
  cases hf : w.finished with
  | false => rfl
  | true =>
    rw [next, hf] at h
    cases h

/-- A walk goes on by a step, unless it has shown its last term. -/
theorem stepsOn_of_next {r : Run} (h : next R budget w s = .ok (some (r, w')) s') :
    w.finished = false ∧ (w'.finished = false → StepsOn R (w.term, s) (w'.term, s')) := by
  cases hf : w.finished with
  | true =>
    rw [next, hf] at h
    cases h
  | false =>
    refine ⟨rfl, fun hf' => ?_⟩
    rw [next, hf] at h
    obtain ⟨b, s₁, hb, h⟩ := Engine.bind_ok_iff.mp h
    obtain rfl := store_eq_of_allows hb
    cases b with
    | false => cases h
    | true =>
      obtain ⟨o, s₂, hstep, h⟩ := Engine.bind_ok_iff.mp h
      cases o with
      | none =>
        cases h
        cases hf'
      | some r =>
        cases h
        exact ⟨r, hstep, rfl⟩

end Walk

namespace Term

variable {p q : Term × Store} {t u : Term} {s s' : Store} {e : Failure}

/-- A walk has a listing, whose failure reports a spent budget only if it comes to a term that asks
for a number. -/
theorem exists_walk_asks (hR : R.Sparing) (budget : Option Amount) (limit : Nat) (t : Term)
    (s : Store) : ∃ l s', walk R budget limit .ok t s = .ok l s' ∧
      ∀ e, l.failure = some e → e.isBudget = true →
        ∃ u s₁, AsksAfter R (StepsOn R) (t, s) u s₁ ∧ R.evaluate u s₁ = .error e s' := by
  suffices h : ∀ (w : Walk) s, ∃ l s',
      Listing.unfold (Walk.next R budget) .ok limit w s = .ok l s' ∧
        ∀ e, l.failure = some e → w.finished = false ∧ (e.isBudget = true →
          ∃ u s₁, AsksAfter R (StepsOn R) (w.term, s) u s₁ ∧ R.evaluate u s₁ = .error e s') by
    obtain ⟨l, s', hl, hfails⟩ := h ⟨t, 0, false⟩ s
    exact ⟨l, s', hl, fun e he => (hfails e he).2⟩
  induction limit with
  | zero => exact fun w s => ⟨⟨[], none⟩, s, rfl, nofun⟩
  | succ limit ih =>
    intro w s
    unfold Listing.unfold
    cases hnext : Walk.next R budget w s with
    | error e s₁ =>
      refine ⟨_, s₁, rfl, ?_⟩
      rintro _ ⟨⟩
      exact ⟨Walk.finished_of_error hnext, Walk.relays_next hR budget w s e s₁ hnext⟩
    | ok o s₁ =>
      cases o with
      | none => exact ⟨_, s₁, rfl, nofun⟩
      | some p =>
        obtain ⟨r, w'⟩ := p
        obtain ⟨l, s', hl, hfails⟩ := ih w' s₁
        obtain ⟨hf, hstep⟩ := Walk.stepsOn_of_next hnext
        refine ⟨⟨r :: l.items, l.failure⟩, s', by simp only [hl], fun e he => ⟨hf, fun hb => ?_⟩⟩
        obtain ⟨hf', hasks⟩ := hfails e he
        obtain ⟨u, s₂, hu, hr⟩ := hasks hb
        exact ⟨u, s₂, .trans (.single (hstep hf')) hu, hr⟩

/-! ### Searches for a canonical form -/

variable {limits : Budget}

theorem StepsOn.searched (h : ReflTransGen (StepsOn R) p q) :
    ReflTransGen (SearchedOn R limits) p q :=
  h.lift id fun _ _ => .step

theorem spares_counted (t : Term) : t.counted.Spares := by
  unfold counted
  split
  · exact .throw rfl
  · exact .pure _

theorem spares_closeProbes (hR : R.Sparing) (probes : List Variable) (t : Term) :
    (closeProbes R probes t).Spares :=
  (spares_counted t).bind fun _ => (spares_abstractAll hR probes t).bind fun _ => .pure _

theorem relays_searchFrom (hR : R.Sparing) (maxSteps : Amount) (left : Nat) (t : Term)
    (probes : List Variable) (spent : Nat) (s : Store) :
    Relays R (AsksAfter R (SearchedOn R limits) (t, s))
      (searchFrom R maxSteps t probes spent left) s := by
  induction left generalizing t probes spent s with
  | zero => exact .pure _
  | succ left ih =>
    unfold searchFrom
    refine ((relays_run hR maxSteps t s).mono fun u s₁ => .mono fun _ _ => .step).bind
      fun out s₁ hout => ?_
    dsimp only
    split
    · exact .pure _
    · next hfinal =>
      split
      · exact ((spares_closeProbes hR probes out.term).bind fun _ => .pure _).relays
      · obtain ⟨b, -, hrun, -⟩ := run_nil_ok_iff.mp hout
        obtain ⟨s₀, hsteps, hidle⟩ := stepsOn_of_runFrom hrun (by simpa using hfinal)
        have minted : (Engine.freshVariable (Probe.name probes.length)).Spares :=
          Engine.ends_freshVariable _
        refine minted.relays.bind fun probe s₂ hprobe => ?_
        refine (spares_apply hR out.term [var probe]).relays.bind fun w s₃ hw => ?_
        have moves : ReflTransGen (SearchedOn R limits) (t, s) (w, s₃) :=
          (StepsOn.searched hsteps).tail (.feed hidle hprobe hw)
        exact (ih w _ _ s₃).mono fun u s₄ => .trans moves

theorem relays_search (hR : R.Sparing) (limits : Budget) (t : Term) (s : Store) :
    Relays R (AsksAfter R (SearchedOn R limits) (t, s)) (search R limits t) s := by
  unfold search
  refine (Engine.spares_whole limits.args).relays.bind fun args s₁ hargs => ?_
  obtain rfl := Engine.store_eq_of_whole hargs
  exact relays_searchFrom hR limits.steps args.toNat t [] 0 s₁

theorem spares_split (hR : R.Sparing) (h : Term) (as : List Term) : (split R h as).Spares := by
  unfold split
  split
  · exact (spares_apply hR h _).bind fun _ => .pure _
  · exact .pure _

theorem spares_join (hR : R.Sparing) (front last : Option Term) : (join R front last).Spares := by
  unfold join
  split
  · exact (spares_apply hR _ _).bind fun _ => .pure _
  · exact .pure _

private theorem relays_best (hR : R.Sparing) {guess : Engine (Option Term)}
    (hguess : ∀ k s', search R limits t s = .ok (none, k) s' →
      Relays R (AsksAfter R (SearchedOn R limits) (t, s)) guess s') :
    Relays R (AsksAfter R (SearchedOn R limits) (t, s)) (best R limits t guess) s := by
  unfold best
  refine (relays_search hR limits t s).bind fun found s₁ hfound => ?_
  obtain ⟨o, n⟩ := found
  cases o with
  | some form => exact .pure _
  | none => exact hguess n s₁ hfound

/-- A guess, made when a search has ended without a form, turns to both halves. No hook makes them
larger than the whole. -/
theorem relays_guess (hR : R.Sparing) (limits : Budget) (t : Term) (patience : Nat) {k : Nat}
    {s s' : Store} (hnone : search R limits t s = .ok (none, k) s') :
    Relays R (AsksAfter R (SearchedOn R limits) (t, s)) (guess R limits t patience) s' := by
  match t with
  | app n h as =>
    have quiet : R.quiet h = true := by rw [Rules.quiet, hR.hookless, Bool.true_or]
    rw [guess_app]
    refine (spares_split hR h as).relays.bind fun halves s₁ hsplit => ?_
    obtain ⟨front, last⟩ := halves
    dsimp only
    rw [if_pos (by rw [Rules.goesOn, quiet, Bool.or_true])]
    have onFront : Relays R (AsksAfter R (SearchedOn R limits) (front, s₁))
        (best R limits front (guess R limits front (patience - 1))) s₁ :=
      relays_best hR fun k s₂ h => relays_guess hR limits front (patience - 1) h
    refine (onFront.mono fun u s₂ => .trans (.single (.front hnone hsplit))).bind fun f s₂ hf => ?_
    have onLast : Relays R (AsksAfter R (SearchedOn R limits) (last, s₂))
        (best R limits last (guess R limits last (patience - 1))) s₂ :=
      relays_best hR fun k s₃ h => relays_guess hR limits last (patience - 1) h
    refine (onLast.mono fun u s₃ => .trans (.single (.last hnone hsplit hf))).bind fun a s₃ _ => ?_
    exact (spares_join hR f a).relays
  | var _ | native _ | foreign _ | named _ _ | lam _ _ =>
    unfold guess
    exact .pure _
termination_by t.size
decreasing_by
  · exact (size_split quiet hsplit).1
  · exact (size_split quiet hsplit).2

/-- A search that is not strict. -/
theorem relays_canonicalize (hR : R.Sparing) (limits : Budget) (t : Term) (s : Store) :
    Relays R (AsksAfter R (SearchedOn R limits) (t, s)) (canonicalize R limits t false) s := by
  unfold canonicalize
  refine (relays_search hR limits t s).bind fun found s₁ hfound => ?_
  obtain ⟨o, n⟩ := found
  cases o with
  | some form => exact .pure _
  | none => exact (relays_guess hR limits t patience hfound).bind fun _ _ _ => .pure _

/-! ### Evaluations that spend their budget -/

/-- An evaluation that reports a spent budget reports it for its term. -/
theorem ends_toNumber_for (R : Rules) (maxSteps : Option Amount) (t : Term) :
    Ends (t.toNumber R maxSteps)
      (fun e => e.isBudget = true → e = .numeralOutOfSteps t (maxSteps.getD Numeral.defaultSteps))
      fun _ => True := by
  unfold toNumber
  refine .bind (P := fun _ => True) (fun s => ?_) fun out _ => ?_
  · dsimp only
    cases run R (maxSteps.getD Numeral.defaultSteps) t [native .successor, numeral 0] true s with
    | ok out s' => trivial
    | error e s' =>
      intro hb
      by_cases he : e.isBudget = true
      · exact if_pos he
      · rw [if_neg he] at hb
        exact absurd hb he
  · split
    · exact .pure trivial
    · refine .throw fun hb => ?_
      rw [Failure.isBudget_notANumeral] at hb
      cases hb

/-- Whether some moves lead from a term and a store to where the combinator fires that asks for the
number of another term, and the evaluation of that, a strict run one level deeper, spends its
budget, which a failure reports. -/
def AsksInVain (depth : Nat) (G : Term × Store → Term × Store → Prop) (p : Term × Store)
    (e : Failure) (s' : Store) : Prop :=
  ∃ inner u s, depth = inner + 1 ∧ AsksAfter (.plain depth) G p u s ∧
    u.toNumber (.plain inner) none s = .error e s' ∧
    e = .numeralOutOfSteps u Numeral.defaultSteps

/-- A level of evaluation that reports a spent budget is one above another. -/
theorem asksInVain_of_evaluate {depth : Nat} (hu : AsksAfter (.plain depth) G p u s)
    (he : (Rules.plain depth).evaluate u s = .error e s') (hb : e.isBudget = true) :
    AsksInVain depth G p e s' := by
  cases depth with
  | zero =>
    cases he
    cases hb
  | succ inner =>
    change EStateM.bind (u.toNumber (.plain inner) none) _ s = _ at he
    unfold EStateM.bind at he
    split at he
    · cases he
    · next hn =>
      cases he
      exact ⟨inner, u, s, rfl, hu, hn, (ends_toNumber_for _ none u).of_error hn hb⟩

mutual

/-- A term of combinators that stand for lambda terms asks for no number. -/
theorem MadeOf.not_asks : ∀ {t : Term} {s : Store}, t.MadeOf .pure → ¬ t.Asks R s u s'
  | app _ _ _, _, h, .here _ => absurd h.2.1 Bool.false_ne_true
  | app _ _ _, _, h, .head _ _ hu => h.2.1.not_asks hu
  | app _ _ _, _, h, .arg _ _ _ hu => h.2.2.not_asksAmong hu

theorem MadeOfAll.not_asksAmong : ∀ {ts : List Term} {s : Store}, MadeOfAll .pure ts →
    ¬ AsksAmong R ts s u s'
  | _ :: _, _, h, .here hu => h.1.not_asks hu
  | _ :: _, _, h, .there _ hu => h.2.not_asksAmong hu

end

/-- Neither a step nor a probe nor taking an application apart brings in another combinator. -/
theorem MadeOf.of_searchedOn (h : p.1.MadeOf .pure) (hmove : SearchedOn R limits p q) :
    q.1.MadeOf .pure := by
  have hK := Kinds.closed_pure R
  cases hmove with
  | step hstep =>
    obtain ⟨r, hr, hterm⟩ := hstep
    exact hterm ▸ ((ends_step hK h).of_ok hr r rfl).1
  | feed _ _ happly => exact (ends_apply_madeOf hK h (.cons (t := var _) trivial .nil)).of_ok happly
  | front _ hsplit => exact ((ends_split hK h.2.1 h.2.2).of_ok hsplit).1
  | last _ hsplit _ => exact ((ends_split hK h.2.1 h.2.2).of_ok hsplit).2

theorem MadeOf.not_asksAfter (h : p.1.MadeOf .pure) :
    ¬ AsksAfter R (SearchedOn R limits) p u s' := by
  rintro ⟨q, hmoves, hu⟩
  have made : q.1.MadeOf .pure := by
    clear hu
    induction hmoves with
    | refl => exact h
    | tail _ hmove ih => exact ih.of_searchedOn hmove
  exact made.not_asks hu

theorem MadeOf.not_asksInVain {depth : Nat} (h : p.1.MadeOf .pure) :
    ¬ AsksInVain depth (SearchedOn (.plain depth) limits) p e s' := by
  rintro ⟨inner, u, s, -, hu, -⟩
  exact h.not_asksAfter hu

theorem AsksInVain.searched {depth : Nat} (limits : Budget)
    (h : AsksInVain depth (StepsOn (.plain depth)) p e s') :
    AsksInVain depth (SearchedOn (.plain depth) limits) p e s' := by
  obtain ⟨inner, u, s, hd, hu, hr⟩ := h
  exact ⟨inner, u, s, hd, hu.mono fun _ _ => .step, hr⟩

theorem MadeOf.not_asksInVain_steps {depth : Nat} (h : p.1.MadeOf .pure) :
    ¬ AsksInVain depth (StepsOn (.plain depth)) p e s' :=
  fun hvain => h.not_asksInVain (hvain.searched ⟨.number 0, .number 0⟩)

/-- Where a run that is not strict, a walk or a search for a canonical form that is not strict fails
with the report of a spent budget, it has come to a term in which the combinator fires that asks for
a number, and the report is the one of the evaluation over the store that it had there. Without this
combinator there is no such failure. -/
theorem spent_of_asked (depth : Nat) (t : Term) :
    (∀ budget args s s' e, t.run (.plain depth) budget args false s = .error e s' →
      e.isBudget = true → ∃ start s₁, t.apply (.plain depth) args s = .ok start s₁ ∧
        AsksInVain depth (StepsOn (.plain depth)) (start, s₁) e s') ∧
    (∀ budget limit s, ∃ l s', t.walk (.plain depth) budget limit .ok s = .ok l s' ∧
      ∀ e, l.failure = some e → e.isBudget = true →
        AsksInVain depth (StepsOn (.plain depth)) (t, s) e s') ∧
    (∀ limits s s' e, t.canonicalize (.plain depth) limits false s = .error e s' →
      e.isBudget = true →
        AsksInVain depth (SearchedOn (.plain depth) limits) (t, s) e s') ∧
    (t.MadeOf .pure → ∀ e, e.isBudget = true →
      (∀ budget args s s', MadeOfAll .pure args →
        t.run (.plain depth) budget args false s ≠ .error e s') ∧
      (∀ budget limit s l s', t.walk (.plain depth) budget limit .ok s = .ok l s' →
        l.failure ≠ some e) ∧
      ∀ limits s s', t.canonicalize (.plain depth) limits false s ≠ .error e s') := by
  have hR := Rules.sparing_plain depth
  have runs {budget : Amount} {args : List Term} {s s' : Store} {e : Failure}
      (h : t.run (.plain depth) budget args false s = .error e s') (hb : e.isBudget = true) :
      ∃ start s₁, t.apply (.plain depth) args s = .ok start s₁ ∧
        AsksInVain depth (StepsOn (.plain depth)) (start, s₁) e s' := by
    rw [run_eq_apply_bind] at h
    cases happly : t.apply (.plain depth) args s with
    | ok start s₁ =>
      rw [Engine.bind_of_ok happly] at h
      obtain ⟨u, s₂, hu, he⟩ := relays_run hR budget start s₁ e s' h hb
      exact ⟨start, s₁, rfl, asksInVain_of_evaluate hu he hb⟩
    | error e₁ s₁ =>
      rw [Engine.bind_of_error happly] at h
      cases h
      exact absurd hb (Bool.eq_false_iff.mp ((spares_apply hR t args).of_error happly))
  have searches {limits : Budget} {s s' : Store} {e : Failure}
      (h : t.canonicalize (.plain depth) limits false s = .error e s') (hb : e.isBudget = true) :
      AsksInVain depth (SearchedOn (.plain depth) limits) (t, s) e s' := by
    obtain ⟨u, s₁, hu, he⟩ := relays_canonicalize hR limits t s e s' h hb
    exact asksInVain_of_evaluate hu he hb
  have walks (budget : Option Amount) (limit : Nat) (s : Store) :
      ∃ l s', t.walk (.plain depth) budget limit .ok s = .ok l s' ∧
        ∀ e, l.failure = some e → e.isBudget = true →
          AsksInVain depth (StepsOn (.plain depth)) (t, s) e s' := by
    obtain ⟨l, s', hl, hfails⟩ := exists_walk_asks hR budget limit t s
    refine ⟨l, s', hl, fun e he hb => ?_⟩
    obtain ⟨u, s₁, hu, he⟩ := hfails e he hb
    exact asksInVain_of_evaluate hu he hb
  refine ⟨fun _ _ _ _ _ => runs, walks, fun _ _ _ _ => searches, fun made e hb => ⟨?_, ?_, ?_⟩⟩
  · intro budget args s s' hargs hrun
    obtain ⟨start, s₁, happly, hvain⟩ := runs hrun hb
    have made' := (ends_apply_madeOf (Kinds.closed_pure _) made hargs).of_ok happly
    exact MadeOf.not_asksInVain_steps made' hvain
  · intro budget limit s l s' hl he
    obtain ⟨l', s₁, hl', hvain⟩ := walks budget limit s
    rw [hl] at hl'
    cases hl'
    exact MadeOf.not_asksInVain_steps made (hvain e he hb)
  · intro limits s s' h
    exact MadeOf.not_asksInVain made (searches h hb)

/-! ### Failures that are passed on -/

/-- A run fails where a step fails. -/
theorem runFrom_of_step_error {budget : Int} {steps patience : Nat} {s s' : Store}
    (hb : (steps : Int) < budget) (h : step R t s = .error e s') :
    runFrom R budget t steps patience s = .error e s' := by
  rw [runFrom, if_pos hb]
  split
  · next he =>
    rw [h] at he
    cases he
    rfl
  · next he =>
    rw [h] at he
    cases he
  · next he =>
    rw [h] at he
    cases he

/-- So a run fails with its first step, if it may take one. -/
theorem run_nil_of_step_error {budget : Amount} {b : Int} {s s' : Store}
    (hb : budget.bound? = some b) (hpos : 0 < b) (h : step R t s = .error e s') (strict : Bool) :
    run R budget t [] strict s = .error e s' := by
  unfold run
  rw [apply_nil, pure_bind, Engine.bound_eq_pure hb, pure_bind]
  exact Engine.bind_of_error (runFrom_of_step_error hpos h)

/-- A strict run that does not come to an end reports its spent budget. -/
theorem run_strict_of_not_final {budget : Amount} {b : Int} {args : List Term} {s s₁ s₂ : Store}
    {out : Run} (happly : t.apply R args s = .ok t' s₁) (hb : budget.bound? = some b)
    (hrun : runFrom R b t' 0 patience s₁ = .ok out s₂) (hf : out.final = false) :
    run R budget t args true s = .error (.runOutOfSteps t budget) s₂ := by
  unfold run
  rw [Engine.bind_of_ok happly, Engine.bound_eq_pure hb, pure_bind, Engine.bind_of_ok hrun, hf]
  rfl

/-- An evaluation whose run reports a spent budget reports it for its term. -/
theorem toNumber_of_run_error {maxSteps : Option Amount} {s s' : Store}
    (h : run R (maxSteps.getD Numeral.defaultSteps) t [native .successor, numeral 0] true s =
      .error e s') (hb : e.isBudget = true) :
    t.toNumber R maxSteps s =
      .error (.numeralOutOfSteps t (maxSteps.getD Numeral.defaultSteps)) s' := by
  unfold toNumber
  refine Engine.bind_of_error ?_
  rw [h]
  exact congrArg (EStateM.Result.error · s') (if_pos hb)

end Term

namespace Coercion

/-- The term `W W W`, which steps to itself. -/
def loop (n : Nat) : Term := .app n (.native .W) [.native .W, .native .W]

/-- The term `K (K (W W W))`, which is no numeral: on two arguments it loops. -/
def endless : Term := .app 2 (.native .K) [.app 1 (.native .K) [loop 0]]

/-- The number asked for, `!nat (K (K (W W W)))`. -/
def asking : Term := .app 3 (.native .toNumeral) [endless]

/-- The store in which it was put together. -/
def store : Store := ⟨1, 4, ∅⟩

theorem assembled : Assembled store [asking, .native .toNumeral, endless,
    .app 1 (.native .K) [loop 0], .native .K, loop 0, .native .W] := by
  have looped : (Term.native .W).apply (.plain 0) [.native .W, .native .W] ⟨1, 0, ∅⟩ =
      .ok (loop 0) ⟨1, 1, ∅⟩ := rfl
  have dropped : (Term.native .K).apply (.plain 0) [loop 0] ⟨1, 1, ∅⟩ =
      .ok (.app 1 (.native .K) [loop 0]) ⟨1, 2, ∅⟩ := rfl
  have again : (Term.native .K).apply (.plain 0) [.app 1 (.native .K) [loop 0]] ⟨1, 2, ∅⟩ =
      .ok endless ⟨1, 3, ∅⟩ := rfl
  have asked : (Term.native .toNumeral).apply (.plain 0) [endless] ⟨1, 3, ∅⟩ =
      .ok asking store := rfl
  have first : Assembled ⟨1, 1, ∅⟩ [loop 0, .native .W] :=
    .apply (.native .start (by simp [Native.hooked])) (by simp) (by simp) looped
  have second : Assembled ⟨1, 2, ∅⟩
      [.app 1 (.native .K) [loop 0], .native .K, loop 0, .native .W] :=
    .apply (.native first (by simp [Native.hooked])) (by simp) (by simp) dropped
  have third : Assembled ⟨1, 3, ∅⟩
      [endless, .app 1 (.native .K) [loop 0], .native .K, loop 0, .native .W] :=
    .apply second (by simp) (by simp) again
  exact .apply (.native third (by simp [Native.hooked])) (by simp) (by simp) asked

/-- The loop spends what the evaluation may take. -/
theorem toNumber_endless : ∃ s, endless.toNumber (.plain 0) none store =
    .error (.numeralOutOfSteps endless Numeral.defaultSteps) s := by
  have applied : endless.apply (.plain 0) [.native .successor, .numeral 0] store =
      .ok (.app 4 (.native .K) [.app 1 (.native .K) [loop 0], .native .successor, .numeral 0])
        ⟨1, 5, ∅⟩ := rfl
  have first : Term.step (.plain 0)
      (.app 4 (.native .K) [.app 1 (.native .K) [loop 0], .native .successor, .numeral 0])
      ⟨1, 5, ∅⟩ = .ok (some ⟨.app 5 (.native .K) [loop 0, .numeral 0], 1⟩) ⟨1, 6, ∅⟩ :=
    Term.step_app_of_reduce Std.HashSet.not_mem_empty rfl
  have second : Term.step (.plain 0) (.app 5 (.native .K) [loop 0, .numeral 0]) ⟨1, 6, ∅⟩ =
      .ok (some ⟨loop 0, 1⟩) ⟨1, 6, ∅⟩ :=
    Term.step_app_of_reduce Std.HashSet.not_mem_empty rfl
  have progress (t : Term) (s : Store) (h : (∃ n, t = loop n) ∧ s.settled = ∅) :
      ∃ u s', t.step (.plain 0) s = .ok (some ⟨u, 1⟩) s' ∧ (∃ n, u = loop n) ∧ s'.settled = ∅ := by
    obtain ⟨⟨n, rfl⟩, hs⟩ := h
    have unsettled : n ∉ s.settled := by
      rw [hs]
      exact Std.HashSet.not_mem_empty
    exact ⟨loop s.nextNode, { s with nextNode := s.nextNode + 1 },
      Term.step_app_of_reduce unsettled rfl, ⟨_, rfl⟩, hs⟩
  obtain ⟨u, s, -, hloop, -⟩ := Term.exists_runFrom_of_progress progress
    (t := loop 0) (s := ⟨1, 6, ∅⟩) ⟨⟨0, rfl⟩, rfl⟩ 999998 2 Term.patience
  have ran : Term.runFrom (.plain 0) 1000000
      (.app 4 (.native .K) [.app 1 (.native .K) [loop 0], .native .successor, .numeral 0]) 0
      Term.patience ⟨1, 5, ∅⟩ = .ok ⟨u, 1000000, false⟩ s := by
    rw [Term.runFrom_of_step (by decide) first Nat.one_ne_zero,
      Term.runFrom_of_step (by decide) second Nat.one_ne_zero]
    exact hloop
  have spent : endless.run (.plain 0) Numeral.defaultSteps [.native .successor, .numeral 0] true
      store = .error (.runOutOfSteps endless Numeral.defaultSteps) s :=
    Term.run_strict_of_not_final applied rfl ran rfl
  exact ⟨s, Term.toNumber_of_run_error spent rfl⟩

/-- A run that is not strict fails with its first step. -/
theorem run_asking : ∃ s, asking.run (.plain 1) (.number 1000) [] false store =
    .error (.numeralOutOfSteps endless Numeral.defaultSteps) s := by
  obtain ⟨s, hs⟩ := toNumber_endless
  have unsettled : 3 ∉ store.settled := Std.HashSet.not_mem_empty
  exact ⟨s, Term.run_nil_of_step_error (b := 1000) rfl (by decide)
    (Term.step_error_of_asks (Engine.bind_of_error hs) (.here unsettled)) false⟩

theorem madeOf_endless : endless.MadeOf .pure := by
  simp [endless, loop, Term.MadeOf, Term.MadeOfAll, Term.isApp, Kinds.pure, Native.isPure]

end Coercion

/-- The run of `!nat (K (K (W W W)))` asks for a number in vain. A run of the term that it asks for
reports no spent budget, unless it is strict. -/
theorem spent_of_asked_sample :
    (∃ e s, Coercion.asking.run (.plain 1) (.number 1000) [] false Coercion.store = .error e s ∧
      e.isBudget = true ∧
      ∃ start s₁, Coercion.asking.apply (.plain 1) [] Coercion.store = .ok start s₁ ∧
        Term.AsksInVain 1 (Term.StepsOn (.plain 1)) (start, s₁) e s) ∧
    Coercion.endless.MadeOf .pure ∧
    (Failure.numeralOutOfSteps Coercion.endless Numeral.defaultSteps).isBudget = true ∧
    ∀ s, Coercion.endless.run (.plain 1) (.number 1000) [] false Coercion.store ≠
      .error (.numeralOutOfSteps Coercion.endless Numeral.defaultSteps) s := by
  obtain ⟨s, hs⟩ := Coercion.run_asking
  obtain ⟨runs, -⟩ := Term.spent_of_asked 1 Coercion.asking
  obtain ⟨-, -, -, lenient⟩ := Term.spent_of_asked 1 Coercion.endless
  refine ⟨⟨_, s, hs, rfl, runs _ _ _ _ _ hs rfl⟩, Coercion.madeOf_endless, rfl, fun s => ?_⟩
  exact (lenient Coercion.madeOf_endless _ rfl).1 _ _ _ s .nil

/-- A run that is not strict, of a term that was put together of the library's combinators, fails
with the report of a spent budget. -/
theorem exists_run_spent :
    Assembled Coercion.store [Coercion.asking, .native .toNumeral, Coercion.endless,
      .app 1 (.native .K) [Coercion.loop 0], .native .K, Coercion.loop 0, .native .W] ∧
    (Failure.numeralOutOfSteps Coercion.endless (.number 1000000)).isBudget = true ∧
    ∃ s, Coercion.asking.run (.plain 1) (.number 1000) [] false Coercion.store =
      .error (.numeralOutOfSteps Coercion.endless (.number 1000000)) s :=
  ⟨Coercion.assembled, rfl, Coercion.run_asking⟩

end Combinatory
