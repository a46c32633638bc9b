import Combinatory.LambdaForm
import Combinatory.Proofs.Ending.Canonical

/-!
# The search for lambda forms ends

Within limits that are numbers, the naive lambda form is found or some combinator has no canonical
form, and the search for lighter forms ends. It never takes a term apart as deep as it may: both
halves of an application, and the body of a lambda, can be taken apart less often than the whole.
-/

namespace Combinatory

open Engine (Ends)

variable {K : Kinds} {R : Rules} {limits : Budget}

namespace Term

/-! ### The naive form -/

/-- Why the naive form of a term may not be found. -/
def NaiveObstacle (K : Kinds) (e : Failure) : Prop := K.Obstacle e ∨ ∃ u, e = .noCanonicalForm u

private theorem ends_canonicalOrFail (hK : K.Closed R) (hl : limits.Numeric) {t : Term}
    (ht : t.MadeOf K) :
    Ends (naiveForm.canonicalOrFail R limits t) (NaiveObstacle K) (MadeOf K) := by
  unfold naiveForm.canonicalOrFail
  apply ((ends_canonical hK hl ht).widen fun _ => .inl).bind
  intro o ho
  cases o with
  | none => exact .throw (.inr ⟨t, rfl⟩)
  | some form => exact .pure (ho form rfl)

mutual

/-- The naive form of a term is found, or some combinator has no canonical form. -/
theorem ends_naiveForm (hK : K.Closed R) (hl : limits.Numeric) : ∀ {t : Term}, t.MadeOf K →
    Ends (naiveForm R limits t) (NaiveObstacle K) (MadeOf K)
  | app n h as, ⟨_, hh, has⟩ => by
    unfold naiveForm
    apply (ends_naiveForm hK hl hh).bind
    intro h' hh'
    apply (ends_naiveForms hK hl has).bind
    intro as' has'
    exact (ends_apply_madeOf hK hh' has').widen fun _ => .inl
  | lam v b, ht => by
    unfold naiveForm
    apply (ends_naiveForm hK hl (t := b) ht).bind
    intro b' hb
    exact (ends_abstract_madeOf hK v hb).widen fun _ => .inl
  | named info d, ht => by
    unfold naiveForm
    exact ends_naiveForm hK hl ht.2
  | native c, ht => by
    unfold naiveForm
    exact ends_canonicalOrFail hK hl ht
  | foreign _, ht => ht.elim
  | var v, ht => by
    unfold naiveForm
    exact ends_canonicalOrFail hK hl ht

theorem ends_naiveForms (hK : K.Closed R) (hl : limits.Numeric) : ∀ {ts : List Term},
    MadeOfAll K ts → Ends (naiveForms R limits ts) (NaiveObstacle K) (MadeOfAll K)
  | [], _ => by
    unfold naiveForms
    exact .pure .nil
  | t :: ts, hts => by
    unfold naiveForms
    apply (ends_naiveForm hK hl hts.1).bind
    intro t' ht
    apply (ends_naiveForms hK hl hts.2).bind
    intro ts' hts
    exact .pure (.cons ht hts)

end

/-! ### How often a term can be taken apart -/

theorem halvings_pos (t : Term) : 0 < t.halvings := by
  cases t <;> simp [halvings]

theorem halvings_le_of_mem {t : Term} : ∀ {ts : List Term}, t ∈ ts → t.halvings ≤ halvingsOfAll ts
  | _ :: _, h => by
    rw [halvingsOfAll]
    rcases List.mem_cons.mp h with rfl | h
    · exact Nat.le_max_left _ _
    · exact Nat.le_trans (halvings_le_of_mem h) (Nat.le_max_right _ _)

theorem halvingsOfAll_append (ts us : List Term) :
    halvingsOfAll (ts ++ us) = max (halvingsOfAll ts) (halvingsOfAll us) := by
  induction ts with
  | nil => simp [halvingsOfAll]
  | cons t ts ih => rw [List.cons_append, halvingsOfAll, halvingsOfAll, ih, Nat.max_assoc]

/-- A head that is no application is taken apart no more often after it was applied. -/
private theorem halvings_extend (hK : K.Closed R) : ∀ (as : List Term) {t u : Term} {s s' : Store},
    t.MadeOf K → t.isApp = false → extend R t as s = .ok u s' →
      u.halvings ≤ max t.halvings (halvingsOfAll as) + as.length + 1
  | [], t, u, s, s', _, _, h => by
    unfold extend at h
    cases h
    exact Nat.le_trans (Nat.le_max_left _ _) (Nat.le_add_right _ _)
  | a :: as, t, u, s, s', ht, hflat, h => by
    unfold extend at h
    split at h
    · cases hflat
    · obtain ⟨o, s₁, hr, h⟩ := Engine.bind_ok_iff.mp h
      cases o with
      | none =>
        cases h
        exact Nat.le_refl _
      | some r =>
        obtain ⟨n, rfl⟩ := Native.numeral_of_replacement (ht.quiet hK) hr
        have made := ((Native.ends_replacement hK ht a).of_ok hr _ rfl).1
        have := halvings_extend hK as made rfl h
        simp only [halvings, halvingsOfAll, List.length_cons] at this ⊢
        omega
    · cases h
      exact Nat.le_refl _

/-- Both halves of an application can be taken apart less often than the whole. -/
theorem halvings_split (hK : K.Closed R) {n : Nat} {h : Term} {as : List Term}
    {front last : Term} {s s' : Store} (hh : h.MadeOf K) (hflat : h.isApp = false)
    (has : MadeOfAll K as) (hsplit : split R h as s = .ok (front, last) s') :
    front.halvings < (app n h as).halvings ∧ last.halvings < (app n h as).halvings := by
  unfold split at hsplit
  rw [halvings]
  cases hlast : as.getLast? with
  | none =>
    rw [hlast] at hsplit
    cases hsplit
    omega
  | some a =>
    rw [hlast] at hsplit
    obtain ⟨u, s₁, hu, hsplit⟩ := Engine.bind_ok_iff.mp hsplit
    cases hsplit
    obtain ⟨bs, rfl⟩ := List.getLast?_eq_some_iff.mp hlast
    have parts := madeOfAll_append.mp has
    rw [List.dropLast_concat, apply_eq_extend R h parts.1.firstLiteral_eq_none] at hu
    have hfront := halvings_extend hK bs hh hflat hu
    have hlast : last ∈ bs ++ [last] := List.mem_append_right bs List.mem_cons_self
    have hle := halvings_le_of_mem hlast
    rw [halvingsOfAll_append] at hle ⊢
    rw [List.length_append, List.length_singleton]
    omega

end Term

/-! ### Searches that end -/

namespace Search

variable {α β γ : Type}

/-- A search ends with a result that meets a condition, or with all the forms that were wanted, or
it fails for one of some causes. -/
def Ends (x : Search β α) (E : Failure → Prop) (Q : α → Prop) : Prop :=
  ∀ s, match x s with
    | .ok a _ => Q a
    | .error .enough _ => True
    | .error (.failed e) _ => E e

namespace Ends

variable {x : Search β α} {E E' : Failure → Prop} {P Q Q' : α → Prop}

theorem widen (hx : Ends x E Q) (hE : ∀ e, E e → E' e) : Ends x E' Q := by
  intro s
  have := hx s
  split at this
  · exact this
  · trivial
  · exact hE _ this

protected theorem pure {a : α} (h : Q a) : Ends (Pure.pure a : Search β α) E Q := fun _ => h

protected theorem bind {f : α → Search β γ} {Q : γ → Prop} (hx : Ends x E P)
    (hf : ∀ a, P a → Ends (f a) E Q) : Ends (x >>= f) E Q := by
  intro s
  have := hx s
  have sequence : (x >>= f) s = EStateM.bind x f s := rfl
  rw [sequence, EStateM.bind]
  cases h : x s with
  | ok a s₁ =>
    rw [h] at this
    exact hf a this s₁
  | error e s₁ =>
    rw [h] at this
    cases e with
    | enough => trivial
    | failed e => exact this

end Ends

variable {E : Failure → Prop}

/-- A computation of the engine that ends is part of a search that does. -/
theorem ends_lift {x : Engine α} {Q : α → Prop} (hx : Engine.Ends x E Q) :
    Ends (lift x : Search β α) E Q := by
  intro s
  have := hx s.store
  unfold lift
  dsimp only
  cases h : x s.store with
  | ok a s' =>
    rw [h] at this
    exact this
  | error e s' =>
    rw [h] at this
    exact this

/-- Noting a form that is shown as it is does not fail. -/
theorem ends_note (c : Candidate) :
    Ends (note (.ok : Candidate → Except Failure Candidate) c) E fun _ => True := by
  intro s
  unfold note
  dsimp only
  split
  · trivial
  · trivial
  · next h => split at h <;> cases h

/-- What is collected fails only as the search does. -/
theorem Ends.collect {x : Search β Unit} {Q : Unit → Prop} (hx : Ends x E Q) (limit : Option Nat)
    (s : Store) : ∃ l s', collect limit x s = .ok l s' ∧ ∀ e, l.failure = some e → E e := by
  unfold Search.collect
  split
  · exact ⟨_, s, rfl, nofun⟩
  · have := hx ⟨s, #[], limit⟩
    rcases hr : x ⟨s, #[], limit⟩ with ⟨a, s'⟩ | ⟨⟨⟩ | e, s'⟩
    · exact ⟨_, s'.store, rfl, nofun⟩
    · exact ⟨_, s'.store, rfl, nofun⟩
    · rw [hr] at this
      refine ⟨_, s'.store, rfl, ?_⟩
      rintro _ ⟨⟩
      exact this

end Search

/-! ### Visiting forms -/

/-- Whether a ceiling is a weight, or allows all weights. -/
def Ceiling.Proper : Ceiling → Prop
  | .improper _ => False
  | _ => True

namespace Search

variable {β : Type} {E : Failure → Prop} {c : Ceiling}

private theorem ends_admits (hc : c.Proper) (t : Term) :
    Ends (admits c t : Search β Bool) E fun _ => True := by
  unfold admits
  cases c with
  | improper _ => exact hc.elim
  | _ => exact .pure trivial

private theorem ends_lowered (hc : c.Proper) :
    Ends (lowered c : Search β Ceiling) E Ceiling.Proper := by
  unfold lowered
  cases c with
  | improper _ => exact hc.elim
  | _ => exact .pure trivial

end Search

variable {β σ : Type} {Inv : σ → Prop} {visit : σ → Candidate → Search β σ}

/-- A visitor ends with whatever is made of the kinds at hand, and keeps an invariant of its own. -/
def Receives (K : Kinds) (Inv : σ → Prop) (visit : σ → Candidate → Search β σ) : Prop :=
  ∀ seen c, Inv seen → c.term.MadeOf K → Search.Ends (visit seen c) K.Obstacle Inv

/-- What is kept below a term: a ceiling that can be compared with, a front of the kinds at hand,
and the invariant of the visitor. -/
structure Best.Sound (K : Kinds) (Inv : σ → Prop) (b : Best σ) : Prop where
  ceiling : b.ceiling.Proper
  front : b.front.MadeOf K
  seen : Inv b.seen

namespace Best

private theorem ends_improve (hv : Receives K Inv visit) {b : Best σ} (hb : b.Sound K Inv)
    {candidate front : Term} (hc : candidate.MadeOf K) (hf : front.MadeOf K) (found : Candidate)
    (origin : Origin) :
    Search.Ends (b.improve candidate found origin front visit) K.Obstacle (Sound K Inv) := by
  unfold improve
  apply (Search.ends_admits hb.ceiling candidate).bind
  intro admitted _
  split
  · apply (hv b.seen _ hb.seen hc).bind
    intro seen hseen
    exact .pure ⟨trivial, hf, hseen⟩
  · exact .pure hb

/-- A visitor of an application can visit its front. -/
private theorem receives_front (hK : K.Closed R) (hv : Receives K Inv visit) {last : Term}
    (hl : last.MadeOf K) : Receives K (Sound K Inv) (fun best found => do
      let candidate ← Search.lift (Term.apply R found.term [last])
      best.improve candidate found (.inApplication found.origin) found.term visit) := by
  intro b c hb hc
  apply (Search.ends_lift (Term.ends_apply_madeOf hK hc (.cons hl .nil))).bind
  intro candidate hcandidate
  exact ends_improve hv hb hcandidate hc _ _

/-- A visitor of an application can visit its last argument. -/
private theorem receives_last (hK : K.Closed R) (hv : Receives K Inv visit) :
    Receives K (Sound K Inv) (fun best found => do
      let candidate ← Search.lift (Term.apply R best.front [found.term])
      best.improve candidate found (.inApplication found.origin) best.front visit) := by
  intro b c hb hc
  apply (Search.ends_lift (Term.ends_apply_madeOf hK hb.front (.cons hc .nil))).bind
  intro candidate hcandidate
  exact ends_improve hv hb hcandidate hb.front _ _

/-- A visitor of a lambda can visit its body. -/
private theorem receives_body (hK : K.Closed R) (hv : Receives K Inv visit) (v : Variable) :
    Receives K (Sound K Inv) (fun best found => do
      let candidate ← Search.lift (Term.abstract R v found.term)
      best.improve candidate found (.inLambda found.origin) best.front visit) := by
  intro b c hb hc
  apply (Search.ends_lift (Term.ends_abstract_madeOf hK v hc)).bind
  intro candidate hcandidate
  exact ends_improve hv hb hcandidate hb.front _ _

end Best

namespace Term

private theorem ends_variablesOnly {t : Term} (ht : t.MadeOf K) :
    Engine.Ends (variablesOnly t) K.Obstacle fun _ => True := by
  rw [variablesOnly, ht.counted_eq, pure_bind]
  exact .pure trivial

/-- After the parts of a term the whole may be visited. -/
private theorem ends_whole (hK : K.Closed R) (hl : limits.Numeric) (hv : Receives K Inv visit)
    {t : Term} (ht : t.MadeOf K) {best : Best σ} (hb : best.Sound K Inv) :
    Search.Ends (do
      let outcome ← Search.lift (canonicalize R limits t false)
      match outcome.canonical with
      | some form =>
        if ← Search.admits best.ceiling form then
          visit best.seen ⟨form, best.steps + outcome.steps, .canonical⟩
        else return best.seen
      | none => return best.seen) K.Obstacle Inv := by
  apply (Search.ends_lift (ends_canonicalize_lenient hK hl ht)).bind
  intro outcome houtcome
  split
  · next form hform =>
    apply (Search.ends_admits hb.ceiling form).bind
    intro admitted _
    split
    · exact hv _ _ hb.seen (houtcome form hform)
    · exact .pure hb.seen
  · exact .pure hb.seen

/-- The search below a term ends if it may take the term apart as often as that is possible. -/
theorem ends_forms (hK : K.Closed R) (hflat : ¬ K.nested) (hl : limits.Numeric) (depth : Nat)
    {σ : Type} {Inv : σ → Prop} {visit : σ → Candidate → Search β σ} (hv : Receives K Inv visit)
    {t : Term} (ht : t.MadeOf K) (hdepth : t.halvings ≤ depth) {ceiling : Ceiling}
    (hc : ceiling.Proper) {seen : σ} (hseen : Inv seen) :
    Search.Ends (forms R limits depth t ceiling seen visit) K.Obstacle Inv := by
  induction depth generalizing σ t ceiling with
  | zero => exact absurd hdepth (Nat.not_le_of_lt t.halvings_pos)
  | succ depth ih =>
    unfold forms
    apply (Search.ends_lift (ends_variablesOnly ht)).bind
    intro only _
    split
    · apply (Search.ends_admits hc t).bind
      intro admitted _
      split
      · exact hv _ _ hseen ht
      · exact .pure hseen
    · cases t with
      | app n h as =>
        have flat : h.isApp = false := Bool.eq_false_iff.mpr fun happ => hflat (ht.1 happ)
        obtain ⟨-, hh, has⟩ := id ht
        dsimp only
        apply (Search.ends_lift (ends_split hK hh has).traced).bind
        rintro ⟨front, last⟩ ⟨⟨hf, ha⟩, s, s', hsplit⟩
        obtain ⟨hfront, hlast⟩ := halvings_split (n := n) hK hh flat has hsplit
        dsimp only at hf ha ⊢
        apply (Search.ends_lowered hc).bind
        intro lowered hlowered
        apply (ih (Best.receives_front hK hv ha) hf (by omega) hlowered
          ⟨hc, hf, hseen⟩).bind
        intro best hbest
        apply (Search.ends_lowered hbest.ceiling).bind
        intro lowered hlowered
        apply (ih (Best.receives_last hK hv) ha (by omega) hlowered hbest).bind
        intro best hbest
        exact ends_whole hK hl hv ht hbest
      | lam v b =>
        rw [halvings] at hdepth
        have hb : b.MadeOf K := ht
        dsimp only
        apply (Search.ends_lowered hc).bind
        intro lowered hlowered
        apply (ih (Best.receives_body hK hv v) hb (by omega) hlowered ⟨hc, hb, hseen⟩).bind
        intro best hbest
        exact ends_whole hK hl hv ht hbest
      | _ =>
        dsimp only
        rw [pure_bind]
        exact ends_whole hK hl hv ht ⟨hc, ht, hseen⟩

/-- The search for the forms of a term ends within the depth that the term is given. -/
private theorem ends_listed (hK : K.Closed R) (hflat : ¬ K.nested) (hl : limits.Numeric) {t : Term}
    (ht : t.MadeOf K) {ceiling : Ceiling} (hc : ceiling.Proper) :
    Search.Ends (forms R limits t.splitDepth t ceiling () fun _ c =>
      Search.note (.ok : Candidate → Except Failure Candidate) c) K.Obstacle fun _ => True :=
  ends_forms hK hflat hl t.splitDepth (fun _ c _ _ => Search.ends_note c) ht
    (Nat.le_add_right _ _) hc trivial

/-- The lighter forms of a term are listed, up to a failure that is to be expected. -/
theorem exists_lighterForms (hK : K.Closed R) (hflat : ¬ K.nested) (hl : limits.Numeric) {t : Term}
    (ht : t.MadeOf K) {ceiling : Ceiling} (hc : ceiling.Proper) (limit : Option Nat) (s : Store) :
    ∃ l s', lighterForms R limits ceiling limit .ok t s = .ok l s' ∧
      ∀ e, l.failure = some e → K.Obstacle e :=
  (ends_listed hK hflat hl ht hc).collect limit s

end Term

end Combinatory
