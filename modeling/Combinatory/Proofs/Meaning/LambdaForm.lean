import Combinatory.LambdaForm
import Combinatory.Proofs.Meaning.Canonical

/-!
# Every lambda form found keeps the meaning

The naive form of a term means the term. The search for lighter forms hands every form it finds to a
visitor, who may build on it or stop the search; what it has found by then counts either way. So a
condition on the forms found is carried through success and failure alike (`Search.Keeps`), and the
search below a part of a term visits only what means the part, as long as the visitor can say the
same of the whole (`ensures_forms`). The front that is paired with a new last argument may be an
older one: it means the front of the application all the same.
-/

namespace Combinatory

open LambdaTerm (Converts)
open Engine (Ensures)

variable {η : Prop} {Γ : Scope}

/-! ### Searches -/

namespace Search

variable {α β γ : Type} {P : β → Store → Prop} {s : SearchState β}

/-- Whether all that has been found met a condition when it was found or later. -/
def Met (P : β → Store → Prop) (s : SearchState β) : Prop :=
  ∀ y ∈ s.found, ∃ s₀, s₀ ≤ s.store ∧ P y s₀

/-- What has been found stays found while the store goes on. -/
theorem Met.later (h : Met P s) {store : Store} (hs : s.store ≤ store) :
    Met P { s with store } := by
  intro y hy
  obtain ⟨s₀, hs₀, hp⟩ := h y hy
  exact ⟨s₀, Store.le_trans hs₀ hs, hp⟩

/-- Whether a search keeps a condition on all that it finds, however it ends, and takes no identity
back. Its result, if there is one, meets a condition of its own. -/
def Keeps (P : β → Store → Prop) (x : Search β α) (s : SearchState β) (Q : α → Store → Prop) :
    Prop :=
  Met P s →
    match x s with
    | .ok a s' => (s.store ≤ s'.store ∧ Q a s'.store) ∧ Met P s'
    | .error _ s' => s.store ≤ s'.store ∧ Met P s'

theorem Keeps.pure {a : α} {Q : α → Store → Prop} (h : Q a s.store) : Keeps P (pure a) s Q :=
  fun hs => ⟨⟨s.store.le_refl, h⟩, hs⟩

theorem Keeps.throw {e : Halt} {Q : α → Store → Prop} : Keeps P (throw e) s Q :=
  fun hs => ⟨s.store.le_refl, hs⟩

/-- A weaker condition on the result is met too. -/
theorem Keeps.imp {x : Search β α} {Q Q' : α → Store → Prop} (hx : Keeps P x s Q)
    (h : ∀ a s', s.store ≤ s' → Q a s' → Q' a s') : Keeps P x s Q' := by
  intro hs
  have hx := hx hs
  split
  · next a s' ha =>
    rw [ha] at hx
    exact ⟨⟨hx.1.1, h a _ hx.1.1 hx.1.2⟩, hx.2⟩
  · next e s' he =>
    rw [he] at hx
    exact hx

/-- A sequence keeps a condition if both parts do. -/
theorem Keeps.bind {x : Search β α} {f : α → Search β γ} {Q : α → Store → Prop}
    {Q' : γ → Store → Prop} (hx : Keeps P x s Q)
    (hf : ∀ a s₁, s.store ≤ s₁.store → Q a s₁.store → Keeps P (f a) s₁ Q') :
    Keeps P (x >>= f) s Q' := by
  intro hs
  have hx := hx hs
  have sequence : (x >>= f) s = EStateM.bind x f s := rfl
  rw [sequence, EStateM.bind]
  cases h : x s with
  | error e s₁ =>
    rw [h] at hx
    exact hx
  | ok a s₁ =>
    rw [h] at hx
    obtain ⟨⟨hs₁, ha⟩, found⟩ := hx
    have hf := hf a s₁ hs₁ ha found
    dsimp only
    split
    · next b s₂ hb =>
      rw [hb] at hf
      exact ⟨⟨Store.le_trans hs₁ hf.1.1, hf.1.2⟩, hf.2⟩
    · next e s₂ he =>
      rw [he] at hf
      exact ⟨Store.le_trans hs₁ hf.1, hf.2⟩

/-- What the engine guarantees holds in a search, which finds nothing meanwhile. -/
theorem keeps_lift {x : Engine α} {Q : α → Store → Prop} (hx : Ensures x s.store Q) :
    Keeps P (lift x) s Q := by
  intro hs
  unfold lift
  dsimp only
  split
  · next a s' h =>
    split at h
    · next b t hb =>
      cases h
      have ended := hx _ _ hb
      exact ⟨ended, hs.later ended.1⟩
    · cases h
  · next e s' h =>
    split at h
    · cases h
    · next e' t he =>
      cases h
      have ended := hx.error _ _ he
      exact ⟨ended, hs.later ended⟩

/-- Noting a form keeps a condition if the form as it is shown meets it. -/
theorem keeps_note {view : Candidate → Except Failure β} {c : Candidate}
    (hc : ∀ y, view c = .ok y → P y s.store) : Keeps P (note view c) s fun _ _ => True := by
  intro hs
  unfold note
  cases hv : view c with
  | error e => exact ⟨s.store.le_refl, hs⟩
  | ok y =>
    have pushed : ∀ z ∈ s.found.push y, ∃ s₀, s₀ ≤ s.store ∧ P z s₀ := by
      intro z hz
      rcases Array.mem_push.mp hz with hz | rfl
      · exact hs z hz
      · exact ⟨s.store, s.store.le_refl, hc _ hv⟩
    dsimp only
    split
    · next h =>
      split at h
      · cases h
      · cases h
        exact ⟨⟨s.store.le_refl, trivial⟩, pushed⟩
    · next h =>
      split at h
      · cases h
        exact ⟨s.store.le_refl, pushed⟩
      · cases h

/-- A search that keeps a condition lists only what met it. -/
theorem Keeps.ensures_collect {x : Search β Unit} {limit : Option Nat} {store : Store}
    {Q : Unit → Store → Prop} (hx : Keeps P x ⟨store, #[], limit⟩ Q) :
    Ensures (Search.collect limit x) store fun l s' =>
      ∀ y ∈ l.items, ∃ s₀, s₀ ≤ s' ∧ P y s₀ := by
  have hx := hx fun y hy => absurd hy (Array.not_mem_empty y)
  unfold Search.collect
  split
  · exact .of_ok rfl store.le_refl fun y hy => nomatch hy
  · cases hr : x ⟨store, #[], limit⟩ with
    | ok a s =>
      rw [hr] at hx
      refine .of_ok (by rw [hr]) hx.1.1 fun y hy => ?_
      exact hx.2 y (Array.mem_toList_iff.mp hy)
    | error e s =>
      rw [hr] at hx
      cases e with
      | enough =>
        refine .of_ok (by rw [hr]) hx.1 fun y hy => ?_
        exact hx.2 y (Array.mem_toList_iff.mp hy)
      | failed cause =>
        refine .of_ok (by rw [hr]) hx.1 fun y hy => ?_
        exact hx.2 y (Array.mem_toList_iff.mp hy)

private theorem keeps_admits (c : Ceiling) (t : Term) : Keeps P (admits c t) s fun _ _ => True := by
  unfold admits
  split
  · exact .pure trivial
  · exact .throw

private theorem keeps_lowered (c : Ceiling) : Keeps P (lowered c) s fun _ _ => True := by
  unfold lowered
  split
  · exact .pure trivial
  · exact .throw

end Search

namespace Term

variable {s : Store}

/-! ### The naive form -/

private theorem ensures_canonicalOrFail (R : Rules) (hη : η) (budget : Budget) (hΓ : Γ.Sealed s)
    {t : Term} (ht : t.Fits Γ s) :
    Ensures (naiveForm.canonicalOrFail R budget t) s fun u s' => Means η Γ s' u t.reading := by
  unfold naiveForm.canonicalOrFail canonical
  rw [bind_assoc]
  apply (ensures_canonicalize (η := η) R hη budget false hΓ ht).bind
  intro c s₁ _ hc
  rw [pure_bind]
  split
  · next form hform => exact .pure (hc form hform)
  · exact .throw

mutual

/-- The naive form of a term means the term. -/
theorem ensures_naiveForm (R : Rules) (hη : η) (budget : Budget) : ∀ (t : Term) {Γ : Scope}
    {s : Store}, Γ.Sealed s → t.Fits Γ s →
      Ensures (naiveForm R budget t) s fun u s' => Means η Γ s' u t.reading
  | app n h as, Γ, s, hΓ, ht => by
    unfold naiveForm
    apply (ensures_naiveForm R hη budget h hΓ ht.2.1).bind
    intro h' s₁ hs₁ hh
    apply (ensures_naiveForms R hη budget as (hΓ.later hs₁) (ht.2.2.later hs₁)).bind
    intro as' s₂ hs₂ has
    exact ensures_apply R (hh.later hs₂) has
  | lam v b, Γ, s, hΓ, ht => by
    unfold naiveForm
    apply (ensures_naiveForm R hη budget b (hΓ.bind ht.2.1) ht.2.2).bind
    intro b' s₁ hs₁ hb
    exact ensures_abstract R (hΓ.later hs₁).minted (hb.mono ((Scope.Below.refl Γ).bind_see v))
  | named info d, Γ, s, hΓ, ht => by
    unfold naiveForm
    exact ensures_naiveForm R hη budget d hΓ ht.2
  | native c, Γ, s, hΓ, ht => by
    unfold naiveForm
    exact ensures_canonicalOrFail R hη budget hΓ ht
  | foreign _, _, _, _, ht => ht.elim
  | var v, Γ, s, hΓ, ht => by
    unfold naiveForm
    exact ensures_canonicalOrFail R hη budget hΓ ht

/-- The naive forms of some terms mean the terms. -/
theorem ensures_naiveForms (R : Rules) (hη : η) (budget : Budget) : ∀ (ts : List Term) {Γ : Scope}
    {s : Store}, Γ.Sealed s → FitsAll Γ s ts →
      Ensures (naiveForms R budget ts) s fun us s' => MeansAll η Γ s' us (readings ts)
  | [], Γ, s, _, _ => by
    unfold naiveForms
    exact .pure .nil
  | t :: ts, Γ, s, hΓ, hts => by
    unfold naiveForms
    apply (ensures_naiveForm R hη budget t hΓ hts.1).bind
    intro u s₁ hs₁ hu
    apply (ensures_naiveForms R hη budget ts (hΓ.later hs₁) (hts.2.later hs₁)).bind
    intro us s₂ hs₂ hus
    exact .pure (.cons (hu.later hs₂) hus)

end

end Term

/-! ### Visiting forms -/

open Search (Keeps)

/-- A visitor of what means a lambda term keeps a condition on the forms found, and an invariant of
its own that does not depend on anything being minted. -/
structure Welcomes {β σ : Type} (η : Prop) (Γ : Scope) (T : LambdaTerm) (P : β → Store → Prop)
    (Inv : σ → Store → Prop) (visit : σ → Candidate → Search β σ) (s : Store) : Prop where
  later : ∀ seen s₁ s₂, s₁ ≤ s₂ → Inv seen s₁ → Inv seen s₂
  visit : ∀ seen c (s₁ : SearchState β), s ≤ s₁.store → Inv seen s₁.store →
    Means η Γ s₁.store c.term T → Keeps P (visit seen c) s₁ Inv

namespace Best

variable {β σ : Type} {P : β → Store → Prop} {Inv : σ → Store → Prop}
  {visit : σ → Candidate → Search β σ} {T : LambdaTerm} {store : Store}

/-- An improvement is welcome if the candidate means what the visitor expects. Of the fronts it is
either the old or the new that is kept. -/
private theorem keeps_improve (hv : Welcomes η Γ T P Inv visit store) {s : SearchState β}
    (hs : store ≤ s.store) {b : Best σ} (hb : Inv b.seen s.store) {candidate : Term}
    (hc : Means η Γ s.store candidate T) (found : Candidate) (origin : Origin) (front : Term) :
    Keeps P (b.improve candidate found origin front visit) s fun b' s' =>
      Inv b'.seen s' ∧ (b'.front = front ∨ b'.front = b.front) := by
  unfold improve
  apply (Search.keeps_admits b.ceiling candidate).bind
  intro admitted s₁ hs₁ _
  split
  · apply (hv.visit b.seen _ s₁ (Store.le_trans hs hs₁) (hv.later _ _ _ hs₁ hb)
      (hc.later hs₁)).bind
    intro seen s₂ _ hseen
    exact .pure ⟨hseen, Or.inl rfl⟩
  · exact .pure ⟨hv.later _ _ _ hs₁ hb, Or.inr rfl⟩

/-- What is kept below an application: the invariant of the visitor, and what the front means. -/
def Fronted (η : Prop) (Γ : Scope) (F : LambdaTerm) (Inv : σ → Store → Prop) (b : Best σ)
    (s : Store) : Prop :=
  Inv b.seen s ∧ Means η Γ s b.front F

private theorem Fronted.later {F : LambdaTerm} (hv : Welcomes η Γ T P Inv visit store)
    (b : Best σ) (s₁ s₂ : Store) (hs : s₁ ≤ s₂) (hb : Fronted η Γ F Inv b s₁) :
    Fronted η Γ F Inv b s₂ :=
  ⟨hv.later _ _ _ hs hb.1, hb.2.later hs⟩

/-- A visitor of an application can visit its front. -/
private theorem welcomes_front (R : Rules) (hv : Welcomes η Γ T P Inv visit store)
    {front last : Term} (hl : last.Fits Γ store)
    (hT : Converts η (.app front.reading last.reading) T) :
    Welcomes η Γ front.reading P (Fronted η Γ front.reading Inv) (fun best found => do
      let candidate ← Search.lift (Term.apply R found.term [last])
      best.improve candidate found (.inApplication found.origin) found.term visit) store where
  later := Fronted.later hv
  visit b c s₁ hs₁ hb hc := by
    have arg : Means η Γ s₁.store last last.reading := .self (hl.later hs₁)
    apply (Search.keeps_lift (Term.ensures_apply R hc (.cons arg .nil))).bind
    intro candidate s₂ hs₂ hcandidate
    apply (keeps_improve hv (Store.le_trans hs₁ hs₂) (hv.later _ _ _ hs₂ hb.1)
      (hcandidate.trans hT) _ _ _).imp
    rintro b' s₃ hs₃ ⟨hseen, hfront | hfront⟩
    · exact ⟨hseen, hfront ▸ hc.later (Store.le_trans hs₂ hs₃)⟩
    · exact ⟨hseen, hfront ▸ hb.2.later (Store.le_trans hs₂ hs₃)⟩

/-- A visitor of an application can visit its last argument, whichever front is the best so far. -/
private theorem welcomes_last (R : Rules) (hv : Welcomes η Γ T P Inv visit store) {F : LambdaTerm}
    {last : Term} (hT : Converts η (.app F last.reading) T) :
    Welcomes η Γ last.reading P (Fronted η Γ F Inv) (fun best found => do
      let candidate ← Search.lift (Term.apply R best.front [found.term])
      best.improve candidate found (.inApplication found.origin) best.front visit) store where
  later := Fronted.later hv
  visit b c s₁ hs₁ hb hc := by
    apply (Search.keeps_lift (Term.ensures_apply R hb.2 (.cons hc .nil))).bind
    intro candidate s₂ hs₂ hcandidate
    apply (keeps_improve hv (Store.le_trans hs₁ hs₂) (hv.later _ _ _ hs₂ hb.1)
      (hcandidate.trans hT) _ _ _).imp
    rintro b' s₃ hs₃ ⟨hseen, hfront⟩
    have same : b'.front = b.front := hfront.elim id id
    exact ⟨hseen, same ▸ hb.2.later (Store.le_trans hs₂ hs₃)⟩

/-- A visitor of a lambda can visit its body. -/
private theorem welcomes_body (R : Rules) (hΓ : Γ.Minted store) {v : Variable} {b : Term}
    (hv : Welcomes η Γ (b.reading.abs v) P Inv visit store) :
    Welcomes η (Γ.bind v) b.reading P (fun best : Best σ => Inv best.seen) (fun best found => do
      let candidate ← Search.lift (Term.abstract R v found.term)
      best.improve candidate found (.inLambda found.origin) best.front visit) store where
  later best := hv.later best.seen
  visit best c s₁ hs₁ hb hc := by
    have opened := hc.mono ((Scope.Below.refl Γ).bind_see v)
    apply (Search.keeps_lift (Term.ensures_abstract R (hΓ.later hs₁) opened)).bind
    intro candidate s₂ hs₂ hcandidate
    apply (keeps_improve hv (Store.le_trans hs₁ hs₂) (hv.later _ _ _ hs₂ hb) hcandidate
      _ _ _).imp
    intro b' s₃ _ hb'
    exact hb'.1

end Best

/-- A visitor stays welcome. -/
theorem Welcomes.after {β σ : Type} {P : β → Store → Prop} {Inv : σ → Store → Prop}
    {visit : σ → Candidate → Search β σ} {T : LambdaTerm} {s s' : Store}
    (hv : Welcomes η Γ T P Inv visit s) (hs : s ≤ s') : Welcomes η Γ T P Inv visit s' :=
  ⟨hv.later, fun seen c s₁ hs₁ => hv.visit seen c s₁ (Store.le_trans hs hs₁)⟩

namespace Term

variable {β σ : Type} {P : β → Store → Prop} {Inv : σ → Store → Prop}
  {visit : σ → Candidate → Search β σ} {s : SearchState β}

private theorem ensures_variablesOnly (t : Term) (s : Store) :
    Ensures (variablesOnly t) s fun _ _ => True := by
  unfold variablesOnly
  apply (ensures_counted t s).bind
  intro symbols s₁ _ _
  exact .pure trivial

/-- After the parts of a term the whole may be visited. -/
private theorem keeps_whole (R : Rules) (hη : η) (budget : Budget) {t : Term} {best : Best σ}
    (hΓ : Γ.Sealed s.store) (ht : t.Fits Γ s.store) (hb : Inv best.seen s.store)
    (hv : Welcomes η Γ t.reading P Inv visit s.store) :
    Keeps P (do
      let outcome ← Search.lift (canonicalize R budget t false)
      match outcome.canonical with
      | some form =>
        if ← Search.admits best.ceiling form then
          visit best.seen ⟨form, best.steps + outcome.steps, .canonical⟩
        else return best.seen
      | none => return best.seen) s Inv := by
  apply (Search.keeps_lift (ensures_canonicalize (η := η) R hη budget false hΓ ht)).bind
  intro outcome s₁ hs₁ hform
  have hb := hv.later _ _ _ hs₁ hb
  split
  · next form heq =>
    apply (Search.keeps_admits best.ceiling form).bind
    intro admitted s₂ hs₂ _
    have hb := hv.later _ _ _ hs₂ hb
    split
    · exact hv.visit _ _ s₂ (Store.le_trans hs₁ hs₂) hb ((hform form heq).later hs₂)
    · exact .pure hb
  · exact .pure hb

/-- The forms of a term that are visited mean the term. -/
theorem keeps_forms (R : Rules) (hη : η) (budget : Budget) (depth : Nat) {σ : Type}
    {Inv : σ → Store → Prop} {visit : σ → Candidate → Search β σ} {t : Term} {s : SearchState β}
    (ceiling : Ceiling) {seen : σ} (hΓ : Γ.Sealed s.store) (ht : t.Fits Γ s.store)
    (hseen : Inv seen s.store) (hv : Welcomes η Γ t.reading P Inv visit s.store) :
    Keeps P (forms R budget depth t ceiling seen visit) s Inv := by
  induction depth generalizing σ Γ t s ceiling with
  | zero =>
    unfold forms
    exact .throw
  | succ depth ih =>
    unfold forms
    apply (Search.keeps_lift (ensures_variablesOnly t s.store)).bind
    intro only s₁ hs₁ _
    have hΓ := hΓ.later hs₁
    have ht := ht.later hs₁
    have hseen := hv.later _ _ _ hs₁ hseen
    have hv := hv.after hs₁
    split
    · apply (Search.keeps_admits ceiling t).bind
      intro admitted s₂ hs₂ _
      have hseen := hv.later _ _ _ hs₂ hseen
      split
      · exact hv.visit _ _ s₂ hs₂ hseen (.self (ht.later hs₂))
      · exact .pure hseen
    · cases t with
      | app n h as =>
        dsimp only
        apply (Search.keeps_lift (ensures_split (η := η) R ht)).bind
        rintro ⟨front, last⟩ s₂ hs₂ ⟨hf, hl, hwhole⟩
        dsimp only at hf hl hwhole ⊢
        apply (Search.keeps_lowered ceiling).bind
        intro lowered s₃ hs₃ _
        have hs := Store.le_trans hs₂ hs₃
        have hf := hf.later hs₃
        apply (ih lowered (hΓ.later hs) hf ⟨hv.later _ _ _ hs hseen, .self hf⟩
          (Best.welcomes_front R (hv.after hs) (hl.later hs₃) hwhole)).bind
        intro best s₄ hs₄ hbest
        apply (Search.keeps_lowered best.ceiling).bind
        intro lowered s₅ hs₅ _
        have hs₃₅ := Store.le_trans hs₄ hs₅
        have hs := Store.le_trans hs hs₃₅
        apply (ih lowered (hΓ.later hs) (hl.later (Store.le_trans hs₃ hs₃₅))
          (Best.Fronted.later hv _ _ _ hs₅ hbest)
          (Best.welcomes_last R (hv.after hs) hwhole)).bind
        intro best s₆ hs₆ hbest
        have hs := Store.le_trans hs hs₆
        exact keeps_whole R hη budget (hΓ.later hs) (ht.later hs) hbest.1 (hv.after hs)
      | lam v b =>
        dsimp only
        apply (Search.keeps_lowered ceiling).bind
        intro lowered s₂ hs₂ _
        have below := (hΓ.later hs₂).bind (ht.2.1.mono hs₂)
        have visitor := Best.welcomes_body R (hΓ.later hs₂).minted (hv.after hs₂)
        refine (ih lowered below (ht.2.2.later hs₂) ?_ visitor).bind ?_
        · exact hv.later _ _ _ hs₂ hseen
        · intro best s₃ hs₃ hbest
          have hs := Store.le_trans hs₂ hs₃
          exact keeps_whole R hη budget (hΓ.later hs) (ht.later hs) hbest (hv.after hs)
      | _ =>
        dsimp only
        rw [pure_bind]
        exact keeps_whole R hη budget hΓ ht hseen hv

/-- Of a term that means a lambda term, only forms that mean it are noted. -/
private theorem keeps_noted (R : Rules) (hη : η) (budget : Budget) (depth : Nat)
    (ceiling : Ceiling) (view : Candidate → Except Failure β) {t : Term} {T : LambdaTerm}
    (hΓ : Γ.Sealed s.store) (ht : Means η Γ s.store t T) :
    Keeps (fun y s' => ∃ c, view c = .ok y ∧ Means η Γ s' c.term T)
      (forms R budget depth t ceiling () fun _ c => Search.note view c) s fun _ _ => True := by
  refine keeps_forms R hη budget depth ceiling hΓ ht.fits trivial ⟨fun _ _ _ _ h => h, ?_⟩
  intro _ c s₁ _ _ hc
  exact Search.keeps_note fun y hy => ⟨c, hy, hc.trans ht.converts⟩

/-- What a search for forms of a term lists means the term. -/
private theorem ensures_listed {view : Candidate → Except Failure β} {x : Search β Unit}
    {limit : Option Nat} {store : Store} {T : LambdaTerm} {Q : Unit → Store → Prop}
    (hx : Keeps (fun y s' => ∃ c, view c = .ok y ∧ Means η Γ s' c.term T) x
      ⟨store, #[], limit⟩ Q) :
    Ensures (Search.collect limit x) store fun l s' =>
      ∀ y ∈ l.items, ∃ c, view c = .ok y ∧ Means η Γ s' c.term T := by
  apply hx.ensures_collect.imp
  intro l s' _ hl y hy
  obtain ⟨s₀, hs₀, c, hshown, hc⟩ := hl y hy
  exact ⟨c, hshown, hc.later hs₀⟩

/-- Every lighter form listed means the term. -/
theorem ensures_lighterForms (R : Rules) (hη : η) (budget : Budget) (ceiling : Ceiling)
    (limit : Option Nat) (view : Candidate → Except Failure β) {s : Store} (hΓ : Γ.Sealed s)
    {t : Term} (ht : t.Fits Γ s) :
    Ensures (lighterForms R budget ceiling limit view t) s fun l s' =>
      ∀ y ∈ l.items, ∃ c, view c = .ok y ∧ Means η Γ s' c.term t.reading :=
  ensures_listed (keeps_noted R hη budget t.splitDepth ceiling view hΓ (.self ht))

/-- Every lambda form listed means the term. -/
theorem ensures_lambdaForms (R : Rules) (hη : η) (budget : Budget) (limit : Option Nat)
    (view : Candidate → Except Failure β) {s : Store} (hΓ : Γ.Sealed s) {t : Term}
    (ht : t.Fits Γ s) :
    Ensures (lambdaForms R budget limit view t) s fun l s' =>
      ∀ y ∈ l.items, ∃ c, view c = .ok y ∧ Means η Γ s' c.term t.reading := by
  refine ensures_listed (Q := fun _ _ => True) ?_
  apply (Search.keeps_lift (ensures_naiveForm (η := η) R hη budget t hΓ ht)).bind
  intro naive s₁ hs₁ hnaive
  exact keeps_noted R hη budget naive.splitDepth .infinite view (hΓ.later hs₁) hnaive

/-- Every lambda form listed means the term. -/
theorem shows_of_mem_lambdaForms {R : Rules} (hη : η) {budget : Budget} {limit : Option Nat}
    {view : Candidate → Except Failure β} {t : Term} {s s' : Store} {l : Listing β}
    (hΓ : Γ.Sealed s) (ht : t.Fits Γ s)
    (hl : lambdaForms R budget limit view t s = .ok l s') :
    ∀ y ∈ l.items, Shows η Γ t.reading Candidate.term view y := by
  intro y hy
  obtain ⟨-, listed⟩ := ensures_lambdaForms R hη budget limit view hΓ ht l s' hl
  obtain ⟨c, hshown, hc⟩ := listed y hy
  exact ⟨c, s', hshown, hc⟩

end Term

end Combinatory
