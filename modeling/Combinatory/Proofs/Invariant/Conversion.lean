import Combinatory.LambdaForm
import Combinatory.Proofs.Invariant
import Combinatory.Proofs.Meaning.Bracket

/-!
# Invariants of converted terms

What an invariant of terms says is true of the naive form of a term, of every form that the search
for lighter ones finds, of what a term is compiled to and of every snapshot on the way there. The
search hands what it finds to a visitor, and it may stop at any form; all that was found until then
meets the invariant (`Search.FindsOnly`).
-/

namespace Combinatory

open Engine (Ends)

variable {R : Rules} {P : Term → Prop}

/-! ### The naive form -/

namespace Invariant

private theorem canonicalOrFail (hP : Invariant R P) (limits : Budget) {t : Term} (ht : P t) :
    GivesOnly (Term.naiveForm.canonicalOrFail R limits t) P := by
  unfold Term.naiveForm.canonicalOrFail
  apply (hP.canonical limits ht).bind
  intro o ho
  cases o with
  | none => exact .throw trivial
  | some form => exact .pure (ho form rfl)

mutual

theorem naiveForm (hP : Invariant R P) (limits : Budget) : ∀ {t : Term}, P t →
    GivesOnly (t.naiveForm R limits) P
  | .app n h as, ht => by
    unfold Term.naiveForm
    apply (hP.naiveForm limits (t := h) (hP.head ht)).bind
    intro h' hh
    apply (hP.naiveForms limits (hP.args ht)).bind
    exact fun as' has => hP.apply hh has
  | .lam v b, ht => by
    unfold Term.naiveForm
    exact (hP.naiveForm limits (t := b) (hP.lam.mp ht)).bind fun _ hb => hP.abstract v hb
  | .named info d, ht => by
    unfold Term.naiveForm
    exact hP.naiveForm limits (t := d) (hP.named ht)
  | .native c, ht => by
    unfold Term.naiveForm
    exact hP.canonicalOrFail limits ht
  | .foreign x, ht => (hP.literal ht).elim
  | .var v, ht => by
    unfold Term.naiveForm
    exact hP.canonicalOrFail limits ht

theorem naiveForms (hP : Invariant R P) (limits : Budget) : ∀ {ts : List Term}, (∀ t ∈ ts, P t) →
    GivesOnly (Term.naiveForms R limits ts) fun us => ∀ u ∈ us, P u
  | [], _ => by
    unfold Term.naiveForms
    exact .pure nofun
  | t :: ts, hts => by
    obtain ⟨ht, hts⟩ := List.forall_mem_cons.mp hts
    unfold Term.naiveForms
    apply (hP.naiveForm limits ht).bind
    intro u hu
    apply (hP.naiveForms limits hts).bind
    exact fun us hus => .pure (List.forall_mem_cons.mpr ⟨hu, hus⟩)

end

end Invariant

/-! ### Searches -/

namespace Search

variable {α β γ : Type} {Q : β → Prop}

/-- Whether a search finds only what meets a condition, however it ends. What it gives, if it gives
anything, meets a condition of its own. -/
def FindsOnly (Q : β → Prop) (x : Search β α) (P : α → Prop) : Prop :=
  ∀ s, (∀ y ∈ s.found, Q y) → match x s with
    | .ok a s' => P a ∧ ∀ y ∈ s'.found, Q y
    | .error _ s' => ∀ y ∈ s'.found, Q y

namespace FindsOnly

variable {x : Search β α} {P : α → Prop}

protected theorem pure {a : α} (h : P a) : FindsOnly Q (Pure.pure a) P := fun _ hs => ⟨h, hs⟩

protected theorem throw {e : Halt} : FindsOnly Q (MonadExcept.throw e) P := fun _ hs => hs

/-- A sequence finds what its parts find. -/
protected theorem bind {f : α → Search β γ} {P' : γ → Prop} (hx : FindsOnly Q x P)
    (hf : ∀ a, P a → FindsOnly Q (f a) P') : FindsOnly Q (x >>= f) P' := by
  intro s hs
  have first := hx s hs
  have sequence : (x >>= f) s = EStateM.bind x f s := rfl
  rw [sequence, EStateM.bind]
  cases h : x s with
  | ok a s₁ =>
    rw [h] at first
    exact hf a first.1 s₁ first.2
  | error e s₁ =>
    rw [h] at first
    exact first

/-- A search lists only what it finds. -/
theorem collect {x : Search β Unit} {P : Unit → Prop} (hx : FindsOnly Q x P)
    (limit : Option Nat) : GivesOnly (Search.collect limit x) fun l => ∀ y ∈ l.items, Q y := by
  intro s
  unfold Search.collect
  by_cases hlimit : limit = some 0
  · rw [if_pos hlimit]
    exact List.forall_mem_nil _
  · rw [if_neg hlimit]
    have found := hx ⟨s, #[], limit⟩ fun y hy => absurd hy (Array.not_mem_empty y)
    rcases hr : x ⟨s, #[], limit⟩ with ⟨a, s'⟩ | ⟨⟨⟩ | e, s'⟩ <;> rw [hr] at found
    · exact fun y hy => found.2 y (Array.mem_toList_iff.mp hy)
    · exact fun y hy => found y (Array.mem_toList_iff.mp hy)
    · exact fun y hy => found y (Array.mem_toList_iff.mp hy)

end FindsOnly

/-- A computation of the engine finds nothing. -/
private theorem findsOnly_lift {x : Engine α} {P : α → Prop} (hx : GivesOnly x P) :
    FindsOnly Q (lift x) P := by
  intro s hs
  have given := hx s.store
  unfold lift
  dsimp only
  cases h : x s.store with
  | ok a s' =>
    rw [h] at given
    exact ⟨given, hs⟩
  | error e s' => exact hs

/-- Noting a form finds it as it is shown. -/
private theorem findsOnly_note {view : Candidate → Except Failure β} {c : Candidate}
    (hc : ∀ y, view c = .ok y → Q y) : FindsOnly Q (note view c) fun _ => True := by
  intro s hs
  unfold note
  cases hv : view c with
  | error e => exact hs
  | ok y =>
    have pushed : ∀ z ∈ s.found.push y, Q z := by
      intro z hz
      rcases Array.mem_push.mp hz with hz | rfl
      · exact hs z hz
      · exact hc _ hv
    dsimp only
    split
    · next h =>
      split at h
      · cases h
      · cases h
        exact ⟨trivial, pushed⟩
    · next h =>
      split at h
      · cases h
        exact pushed
      · cases h

private theorem findsOnly_admits (c : Ceiling) (t : Term) :
    FindsOnly Q (admits c t : Search β Bool) fun _ => True := by
  unfold admits
  split
  · exact .pure trivial
  · exact .throw

private theorem findsOnly_lowered (c : Ceiling) :
    FindsOnly Q (lowered c : Search β Ceiling) fun _ => True := by
  unfold lowered
  split
  · exact .pure trivial
  · exact .throw

end Search

/-! ### Visiting forms -/

open Search (FindsOnly)

variable {β σ : Type} {Q : β → Prop} {visit : σ → Candidate → Search β σ} {Inv : σ → Prop}

/-- Whether a visitor, as long as it keeps an invariant of its own, finds only what meets a
condition when it is shown what meets the invariant of terms. -/
def Admitted (P : Term → Prop) (Q : β → Prop) (Inv : σ → Prop)
    (visit : σ → Candidate → Search β σ) : Prop :=
  ∀ seen c, Inv seen → P c.term → FindsOnly Q (visit seen c) Inv

namespace Best

/-- What is kept below a term meets the invariants. -/
def Meets (P : Term → Prop) (Inv : σ → Prop) (b : Best σ) : Prop := P b.front ∧ Inv b.seen

private theorem findsOnly_improve (hv : Admitted P Q Inv visit) {b : Best σ} (hb : b.Meets P Inv)
    {candidate front : Term} (hc : P candidate) (hf : P front) (found : Candidate)
    (origin : Origin) :
    FindsOnly Q (b.improve candidate found origin front visit) (Meets P Inv) := by
  unfold improve
  apply (Search.findsOnly_admits b.ceiling candidate).bind
  intro admitted _
  split
  · exact (hv b.seen _ hb.2 hc).bind fun seen hseen => .pure ⟨hf, hseen⟩
  · exact .pure hb

/-- A visitor of an application can visit its front. -/
private theorem admitted_front (hP : Invariant R P) (hv : Admitted P Q Inv visit) {last : Term}
    (hl : P last) : Admitted P Q (Meets P Inv) (fun best found => do
      let candidate ← Search.lift (Term.apply R found.term [last])
      best.improve candidate found (.inApplication found.origin) found.term visit) := by
  intro b c hb hc
  apply (Search.findsOnly_lift (hP.apply hc (List.forall_mem_singleton.mpr hl))).bind
  exact fun candidate hcandidate => findsOnly_improve hv hb hcandidate hc _ _

/-- A visitor of an application can visit its last argument. -/
private theorem admitted_last (hP : Invariant R P) (hv : Admitted P Q Inv visit) :
    Admitted P Q (Meets P Inv) (fun best found => do
      let candidate ← Search.lift (Term.apply R best.front [found.term])
      best.improve candidate found (.inApplication found.origin) best.front visit) := by
  intro b c hb hc
  apply (Search.findsOnly_lift (hP.apply hb.1 (List.forall_mem_singleton.mpr hc))).bind
  exact fun candidate hcandidate => findsOnly_improve hv hb hcandidate hb.1 _ _

/-- A visitor of a lambda can visit its body. -/
private theorem admitted_body (hP : Invariant R P) (hv : Admitted P Q Inv visit) (v : Variable) :
    Admitted P Q (Meets P Inv) (fun best found => do
      let candidate ← Search.lift (Term.abstract R v found.term)
      best.improve candidate found (.inLambda found.origin) best.front visit) := by
  intro b c hb hc
  apply (Search.findsOnly_lift (hP.abstract v hc)).bind
  exact fun candidate hcandidate => findsOnly_improve hv hb hcandidate hb.1 _ _

end Best

namespace Invariant

variable {t : Term}

/-- After the parts of a term the whole may be visited. -/
private theorem whole (hP : Invariant R P) (limits : Budget) (hv : Admitted P Q Inv visit)
    (ht : P t) {best : Best σ} (hb : best.Meets P Inv) :
    FindsOnly Q (do
      let outcome ← Search.lift (t.canonicalize R limits false)
      match outcome.canonical with
      | some form =>
        if ← Search.admits best.ceiling form then
          visit best.seen ⟨form, best.steps + outcome.steps, .canonical⟩
        else return best.seen
      | none => return best.seen) Inv := by
  apply (Search.findsOnly_lift (hP.canonicalize limits false ht)).bind
  intro outcome houtcome
  split
  · next form hform =>
    apply (Search.findsOnly_admits best.ceiling form).bind
    intro admitted _
    split
    · exact hv _ _ hb.2 (houtcome form hform)
    · exact .pure hb.2
  · exact .pure hb.2

/-- Of a term that meets the invariant, the search visits only forms that meet it. -/
theorem forms (hP : Invariant R P) (limits : Budget) (depth : Nat) {σ : Type} {Inv : σ → Prop}
    {visit : σ → Candidate → Search β σ} (hv : Admitted P Q Inv visit) {t : Term} (ht : P t)
    (ceiling : Ceiling) {seen : σ} (hseen : Inv seen) :
    FindsOnly Q (t.forms R limits depth ceiling seen visit) Inv := by
  induction depth generalizing σ t ceiling with
  | zero =>
    unfold Term.forms
    exact .throw
  | succ depth ih =>
    unfold Term.forms
    apply (Search.findsOnly_lift (givesOnly_anything t.variablesOnly)).bind
    intro only _
    split
    · apply (Search.findsOnly_admits ceiling t).bind
      intro admitted _
      split
      · exact hv _ _ hseen ht
      · exact .pure hseen
    · cases t with
      | app n h as =>
        dsimp only
        apply (Search.findsOnly_lift (hP.split (hP.head ht) (hP.args ht))).bind
        rintro ⟨front, last⟩ ⟨hf, hl⟩
        apply (Search.findsOnly_lowered ceiling).bind
        intro lowered _
        apply (ih (Best.admitted_front hP hv hl) hf lowered ⟨hf, hseen⟩).bind
        intro best hbest
        apply (Search.findsOnly_lowered best.ceiling).bind
        intro lowered _
        apply (ih (Best.admitted_last hP hv) hl lowered hbest).bind
        exact fun best hbest => hP.whole limits hv ht hbest
      | lam v b =>
        dsimp only
        apply (Search.findsOnly_lowered ceiling).bind
        intro lowered _
        have hb : P b := hP.lam.mp ht
        apply (ih (Best.admitted_body hP hv v) hb lowered ⟨hb, hseen⟩).bind
        exact fun best hbest => hP.whole limits hv ht hbest
      | _ =>
        dsimp only
        rw [pure_bind]
        exact hP.whole limits hv ht ⟨ht, hseen⟩

/-- What is shown of the forms that a search visits comes from what meets the invariant. -/
private theorem noted (hP : Invariant R P) (limits : Budget) (depth : Nat) (ceiling : Ceiling)
    (view : Candidate → Except Failure β) (ht : P t) :
    FindsOnly (fun y => ∃ c, view c = .ok y ∧ P c.term)
      (t.forms R limits depth ceiling () fun _ c => Search.note view c) fun _ => True := by
  have noting : Admitted P (fun y => ∃ c, view c = .ok y ∧ P c.term) (fun _ : Unit => True)
      fun _ c => Search.note view c :=
    fun _ c _ hc => Search.findsOnly_note fun y hy => ⟨c, hy, hc⟩
  exact hP.forms limits depth noting ht ceiling trivial

/-- Every lighter form listed keeps the invariant. -/
theorem lighterForms (hP : Invariant R P) (limits : Budget) (ceiling : Ceiling)
    (limit : Option Nat) (view : Candidate → Except Failure β) (ht : P t) :
    GivesOnly (t.lighterForms R limits ceiling limit view) fun l =>
      ∀ y ∈ l.items, ∃ c, view c = .ok y ∧ P c.term :=
  (hP.noted limits t.splitDepth ceiling view ht).collect limit

/-- Every lambda form listed keeps the invariant. -/
theorem lambdaForms (hP : Invariant R P) (limits : Budget) (limit : Option Nat)
    (view : Candidate → Except Failure β) (ht : P t) :
    GivesOnly (t.lambdaForms R limits limit view) fun l =>
      ∀ y ∈ l.items, ∃ c, view c = .ok y ∧ P c.term := by
  refine FindsOnly.collect (P := fun _ => True) ?_ limit
  apply (Search.findsOnly_lift (hP.naiveForm limits ht)).bind
  exact fun naive hnaive => hP.noted limits naive.splitDepth .infinite view hnaive

/-! ### Compilation -/

/-- Whether compilation within a budget keeps the invariant. -/
private def Within (R : Rules) (P : Term → Prop) (limits : Budget) (budget : Nat) : Prop :=
  ∀ (expanding : List Native) (t : Term), P t →
    GivesOnly (t.compile R limits expanding budget) fun c => P c.value

/-- A rule makes a compiled term of what it gives. -/
private theorem rule {x : Engine Term} {budget left : Nat} (h : left ≤ budget)
    (hx : GivesOnly x P) :
    GivesOnly (do return (⟨← x, left, h⟩ : Compiled Term budget)) fun c => P c.value :=
  hx.bind fun _ hu => .pure hu

/-- The elimination of a variable from both halves of an application. -/
private theorem shared (hP : Invariant R P) {limits : Budget} {expanding : List Native}
    {budget left : Nat} (h : left ≤ budget) (ih : ∀ l ≤ left, Within R P limits l) {v : Variable}
    {front last : Term} (hf : P front) (hl : P last) :
    GivesOnly (do
      let (v₁, front) ← Term.close R v front
      let front ← Term.eliminate R limits expanding left v₁ front
      let (v₂, last) ← Term.close R v last
      let last ← Term.eliminate R limits expanding front.left v₂ last
      return (⟨← Term.apply R (.native .S) [front.value, last.value], last.left,
        Nat.le_trans last.left_le (Nat.le_trans front.left_le h)⟩ : Compiled Term budget))
      fun c => P c.value := by
  apply (hP.close v hf).bind
  rintro ⟨v₁, f⟩ hf
  dsimp only at hf ⊢
  rw [← Term.compile_lam]
  apply (ih left (Nat.le_refl left) expanding (.lam v₁ f) (hP.lam.mpr hf)).bind
  intro f' hf'
  apply (hP.close v hl).bind
  rintro ⟨v₂, a⟩ ha
  dsimp only at ha ⊢
  rw [← Term.compile_lam]
  apply (ih f'.left f'.left_le expanding (.lam v₂ a) (hP.lam.mpr ha)).bind
  intro a' ha'
  exact rule _ (hP.apply (hP.base rfl) (by simpa using ⟨hf', ha'⟩))

/-- The elimination of a variable from a body whose compilation keeps the invariant, as every
compilation within less does. -/
private theorem eliminate (hP : Invariant R P) {limits : Budget} {expanding : List Native}
    {budget : Nat} {v : Variable} (ih : ∀ l < budget, Within R P limits l) {body : Term}
    (hbody : GivesOnly (body.compile R limits expanding budget) fun c => P c.value) :
    GivesOnly (body.eliminate R limits expanding budget v) fun c => P c.value := by
  have constant {u : Term} (hu : P u) : GivesOnly (Term.apply R (.native .K) [u]) P :=
    hP.apply (hP.base rfl) (List.forall_mem_singleton.mpr hu)
  unfold Term.eliminate
  apply hbody.bind
  intro c hc
  split
  · exact rule _ (hP.abstract v hc)
  · next left hleft =>
    have hl : left < budget := by
      have := c.left_le
      omega
    dsimp only
    split
    · split
      · exact .pure (hP.base rfl)
      · exact rule _ (constant hc)
    · next n hd as happ =>
      have whole : P (.app n hd as) := happ ▸ hc
      apply (givesOnly_anything _).bind
      intro mentioned _
      split
      · exact rule _ (constant hc)
      · apply (hP.split (hP.head whole) (hP.args whole)).bind
        rintro ⟨front, last⟩ ⟨hf, ha⟩
        dsimp only at hf ha ⊢
        apply (givesOnly_anything _).bind
        intro ends _
        split
        · exact (ih left hl expanding front hf).bind fun _ hd => .pure hd
        · exact hP.shared (Nat.le_of_lt hl)
            (fun l h => ih l (Nat.lt_of_le_of_lt h hl)) hf ha
    · apply (givesOnly_anything _).bind
      intro mentioned _
      split
      · exact rule _ (constant hc)
      · exact rule _ (hP.abstract v hc)

mutual

private theorem compileStep (hP : Invariant R P) {limits : Budget} {budget : Nat}
    (ih : ∀ l < budget, Within R P limits l) (expanding : List Native) : ∀ {t : Term}, P t →
      GivesOnly (t.compile R limits expanding budget) fun c => P c.value
  | .var v, ht => by
    unfold Term.compile
    exact .pure ht
  | .foreign _, ht => (hP.literal ht).elim
  | .native c, ht => by
    unfold Term.compile
    split
    · exact .pure ht
    · split
      · exact .pure ht
      · next left =>
        apply (hP.canonical limits ht).bind
        intro o ho
        cases o with
        | none => exact .pure ht
        | some form =>
          exact (ih left (Nat.lt_succ_self left) (c :: expanding) form (ho form rfl)).bind
            fun _ hd => .pure hd
  | .named info d, ht => by
    unfold Term.compile
    exact hP.compileStep ih expanding (t := d) (hP.named ht)
  | .lam v b, ht => by
    rw [Term.compile_lam]
    exact hP.eliminate ih (hP.compileStep ih expanding (t := b) (hP.lam.mp ht))
  | .app n h as, ht => by
    unfold Term.compile
    split
    · exact .pure ht
    · apply (hP.compileStep ih expanding (t := h) (hP.head ht)).bind
      intro h' hh
      apply (hP.compileSteps ih expanding h'.left_le (hP.args ht)).bind
      exact fun as' has => rule _ (hP.apply hh has)

private theorem compileSteps (hP : Invariant R P) {limits : Budget} {budget : Nat}
    (ih : ∀ l < budget, Within R P limits l) (expanding : List Native) :
    ∀ {ts : List Term} {b : Nat}, b ≤ budget → (∀ t ∈ ts, P t) →
      GivesOnly (Term.compileAll R limits expanding b ts) fun c => ∀ u ∈ c.value, P u
  | [], b, _, _ => by
    unfold Term.compileAll
    exact .pure (List.forall_mem_nil _)
  | t :: ts, b, hb, hts => by
    obtain ⟨ht, hts⟩ := List.forall_mem_cons.mp hts
    have first : GivesOnly (t.compile R limits expanding b) fun c => P c.value := by
      rcases Nat.lt_or_eq_of_le hb with hlt | rfl
      · exact ih b hlt expanding t ht
      · exact hP.compileStep ih expanding ht
    unfold Term.compileAll
    apply first.bind
    intro t' ht'
    apply (hP.compileSteps ih expanding (Nat.le_trans t'.left_le hb) hts).bind
    exact fun ts' hts' => .pure (List.forall_mem_cons.mpr ⟨ht', hts'⟩)

end

/-- Compilation keeps the invariant, within every budget. -/
theorem compile (hP : Invariant R P) (limits : Budget) (expanding : List Native) (budget : Nat)
    (ht : P t) : GivesOnly (t.compile R limits expanding budget) fun c => P c.value := by
  induction budget using Nat.strong_induction_on generalizing expanding t with
  | _ budget ih =>
    exact hP.compileStep (fun l hl expanding t ht => ih l hl expanding ht) expanding ht

private theorem compileWithin (hP : Invariant R P) (limits : Budget) (budget : Amount) (ht : P t) :
    GivesOnly (t.compileWithin R limits budget) fun p => P p.1 := by
  have compiled (n : Nat) : GivesOnly (do
      let out ← t.compile R limits [] n
      return (out.value, n - out.left)) fun p => P p.1 :=
    (hP.compile limits [] n ht).bind fun out hout => .pure hout
  unfold Term.compileWithin
  dsimp only
  split
  · exact (givesOnly_anything _).bind fun n _ => compiled n.toNat
  · exact compiled 0

theorem bracketForm (hP : Invariant R P) (limits : Budget) (maxSteps : Amount) (ht : P t) :
    GivesOnly (t.bracketForm R limits maxSteps) P := by
  unfold Term.bracketForm
  exact (hP.compileWithin limits maxSteps ht).bind fun p hp => .pure hp

/-- Every snapshot of a gradual compilation keeps the invariant. -/
theorem bracketForms (hP : Invariant R P) (limits : Budget) (perStep : Amount) (limit : Nat)
    (view : Run → Except Failure β) (ht : P t) :
    GivesOnly (t.bracketForms R limits perStep limit view) fun l =>
      ∀ y ∈ l.items, ∃ r, view r = .ok y ∧ P r.term := by
  have next (c : Compilation) (hc : P c.term) :
      GivesOnly (Compilation.next R limits perStep c) fun o =>
        ∀ r c', o = some (r, c') → P r.term ∧ P c'.term := by
    unfold Compilation.next
    split
    · exact .pure fun _ _ h => nomatch h
    · apply (hP.compileWithin limits perStep hc).bind
      rintro ⟨u, n⟩ hu
      refine .pure ?_
      rintro _ _ ⟨⟩
      exact ⟨hc, hu⟩
  exact Listing.givesOnly_unfold (σ := Compilation) (Q := fun r : Run => P r.term) next limit ht

end Invariant

end Combinatory
