import Combinatory.Numeral
import Combinatory.Proofs.Building
import Combinatory.Proofs.Equality

/-!
# Equality of terms that were put together

A history of constructions as in `Builds`, but with combinators of any rules, as long as none but
the successor has a hook. What is put together so is regular, so equality always has an answer
between two such terms, whatever the engine has done since: they are equal exactly when they have
the same skeleton. Equality is therefore an equivalence between them.
-/

namespace Combinatory

open Engine (Ensures)

/-- The terms that have been put together when the engine has reached a store. -/
inductive Assembled : Store → List Term → Prop where
  | start : Assembled {} []
  /-- Whatever else is done in between takes no identity back. -/
  | elapse {s s' : Store} {ts : List Term} (h : Assembled s ts) (hs : s ≤ s') : Assembled s' ts
  | mint {s s' : Store} {ts : List Term} {name : String} {v : Variable} (h : Assembled s ts)
      (hv : Engine.freshVariable name s = .ok v s') : Assembled s' (.var v :: ts)
  /-- A combinator or a numeral. -/
  | native {s : Store} {ts : List Term} {c : Native} (h : Assembled s ts)
      (hc : c.hooked = true → c = .successor) : Assembled s (.native c :: ts)
  | apply {s s' : Store} {ts as : List Term} {R : Rules} {f u : Term} (h : Assembled s ts)
      (hf : f ∈ ts) (has : ∀ a ∈ as, a ∈ ts) (hu : f.apply R as s = .ok u s') :
      Assembled s' (u :: ts)
  | lambda {s s' : Store} {ts binders : List Term} {R : Rules} {listed : Bool} {body u : Term}
      (h : Assembled s ts) (hbinders : ∀ b ∈ binders, b ∈ ts) (hbody : body ∈ ts)
      (hu : Term.lambdaOver R listed binders body s = .ok u s') : Assembled s' (u :: ts)
  /-- The search for a canonical form may run rules of any kind, but these take no identity back
  either. -/
  | define {s s' : Store} {ts : List Term} {R : Rules} {budget : Budget} {name note : Literal}
      {t : Term} {terminal : Option Literal} {canonize : Bool} {n : Naming} (h : Assembled s ts)
      (ht : t ∈ ts) (hn : Naming.ofTerm R budget name t terminal canonize note s = .ok n s')
      (hs : s ≤ s') : Assembled s' (n.term :: ts)

namespace Term

variable {R : Rules} {U : Prop} {V : Set Variable} {s : Store}

private theorem ensures_regular_lambdas (binders : List Term) {body : Term}
    (hbody : body.Regular U V s) :
    Ensures (lambdas R binders body) s fun u s' => u.Regular U V s' := by
  unfold lambdas
  split
  · exact .throw_bind
  · apply (Engine.ensures_ofExcept (distinctBinders [] binders) s).bind
    intro vs s₁ hs _
    exact ensures_regular_abstractAll vs (hbody.later hs)

/-- An abstraction of a regular term is regular, however its binders are given. -/
theorem ensures_regular_lambdaOver (listed : Bool) (binders : List Term) {body : Term}
    (hbody : body.Regular U V s) :
    Ensures (lambdaOver R listed binders body) s fun u s' => u.Regular U V s' := by
  unfold lambdaOver
  split
  · split
    · exact ensures_regular_lambdas _ hbody
    · unfold lambda
      split
      · exact ensures_regular_abstract hbody
      · exact .throw
  · exact ensures_regular_lambdas _ hbody

end Term

namespace Assembled

variable {s : Store} {ts : List Term} {t u : Term}

/-- All that was put together is regular. -/
private theorem regularAll (h : Assembled s ts) : Term.RegularAll True ∅ s ts := by
  induction h with
  | start => trivial
  | elapse h hs ih => exact ih.later hs
  | mint h hv ih =>
    obtain ⟨hs, -, hm⟩ := Engine.ensures_freshVariable _ _ _ _ hv
    exact ⟨hm, ih.later hs⟩
  | native h hc ih => exact ⟨⟨hc, .inr trivial⟩, ih⟩
  | apply h hf has hu ih =>
    have regular := Term.regularAll_iff.mp ih
    obtain ⟨hs, hu⟩ := Term.ensures_regular_apply (regular _ hf)
      (Term.regularAll_iff.mpr fun a ha => regular a (has a ha)) _ _ hu
    exact ⟨hu, ih.later hs⟩
  | lambda h hbinders hbody hu ih =>
    have body := Term.regularAll_iff.mp ih _ hbody
    obtain ⟨hs, hu⟩ := Term.ensures_regular_lambdaOver _ _ body _ _ hu
    exact ⟨hu, ih.later hs⟩
  | define h ht hn hs ih =>
    obtain ⟨-, rfl⟩ := Naming.arity_of_ofTerm hn
    exact ⟨⟨trivial, nofun, (Term.regularAll_iff.mp ih _ ht).later hs⟩, ih.later hs⟩

/-- What was put together is regular. -/
theorem regular (h : Assembled s ts) (ht : t ∈ ts) : t.Regular True ∅ s :=
  Term.regularAll_iff.mp h.regularAll t ht

/-- Between terms that were put together, equality always has an answer, now and later, and it tells
whether they have the same skeleton. So it is an equivalence, whenever it is asked. -/
theorem equal_iff_sameSkeleton (h : Assembled s ts) (R : Rules) :
    (∀ t ∈ ts, ∀ u ∈ ts, ∀ s₁, s ≤ s₁ → ∃ answer s₂, t.equal R u s₁ = .ok answer s₂ ∧
      (answer = true ↔ t.SameSkeleton u)) ∧
    Equivalence fun t u : { t // t ∈ ts } =>
      ∀ s₁, s ≤ s₁ → ∃ s₂, t.1.equal R u.1 s₁ = .ok true s₂ := by
  have decided : ∀ t ∈ ts, ∀ u ∈ ts, ∀ s₁, s ≤ s₁ → ∃ answer s₂,
      t.equal R u s₁ = .ok answer s₂ ∧ (answer = true ↔ t.SameSkeleton u) := by
    intro t ht u hu s₁ hs
    obtain ⟨answer, s₂, hr, -, -, -, hanswer⟩ :=
      Term.gives_equal (R := R) ((h.regular ht).later hs) ((h.regular hu).later hs)
    exact ⟨answer, s₂, hr, hanswer⟩
  have asked (t u : { t // t ∈ ts }) :
      (∀ s₁, s ≤ s₁ → ∃ s₂, t.1.equal R u.1 s₁ = .ok true s₂) ↔ t.1.SameSkeleton u.1 := by
    constructor
    · intro hequal
      obtain ⟨s₂, hr⟩ := hequal s s.le_refl
      obtain ⟨answer, s₂, hr', hanswer⟩ := decided _ t.2 _ u.2 s s.le_refl
      rw [hr] at hr'
      cases hr'
      exact hanswer.mp rfl
    · intro hsame s₁ hs
      obtain ⟨answer, s₂, hr, hanswer⟩ := decided _ t.2 _ u.2 s₁ hs
      exact ⟨s₂, hanswer.mpr hsame ▸ hr⟩
  simp only [asked]
  exact ⟨decided, fun _ => rfl, Eq.symm, Eq.trans⟩

end Assembled

/-! ### Terms without names -/

namespace Term

variable {Γ : Scope} {V : Set Variable} {s : Store}

mutual

/-- A regular term without names, of combinators that stand for lambda terms, is regular also where
nothing else is allowed. -/
theorem Regular.of_pending : ∀ {t : Term} {Γ : Scope} {V : Set Variable}, t.Regular True V s →
    t.Fits Γ s → t.pending = 0 → t.Regular False V s
  | var _, _, _, ht, _, _ => ht
  | native _, _, _, ht, hfits, _ => ⟨ht.1, .inl hfits⟩
  | foreign _, _, _, ht, _, _ => ht
  | named _ _, _, _, _, _, hp => by simp [pending] at hp
  | lam _ _, _, _, ht, hfits, hp => ⟨ht.1, Regular.of_pending ht.2 hfits.2.2 hp⟩
  | app _ _ _, _, _, ht, hfits, hp => by
    rw [pending, Nat.add_eq_zero_iff] at hp
    exact ⟨ht.1, Regular.of_pending ht.2.1 hfits.2.1 hp.1,
      RegularAll.of_pending ht.2.2 hfits.2.2 hp.2⟩

theorem RegularAll.of_pending : ∀ {ts : List Term} {Γ : Scope} {V : Set Variable},
    RegularAll True V s ts → FitsAll Γ s ts → pendingAll ts = 0 → RegularAll False V s ts
  | [], _, _, _, _, _ => trivial
  | _ :: _, _, _, hts, hfits, hp => by
    rw [pendingAll, Nat.add_eq_zero_iff] at hp
    exact ⟨Regular.of_pending hts.1 hfits.1 hp.1, RegularAll.of_pending hts.2 hfits.2 hp.2⟩

end

end Term

namespace Builds

variable {s : Store} {ts : List Term} {t : Term}

/-- What was built has been put together. -/
theorem assembled (h : Builds s ts) : Assembled s ts := by
  induction h with
  | start => exact .start
  | elapse _ hs ih => exact .elapse ih hs
  | mint _ hv ih => exact .mint ih hv
  | @native _ _ c _ hc ih =>
    have regular : (Term.native c).Regular True ∅ {} := Term.regular_native hc
    exact .native ih regular.1
  | apply _ hf has hu ih => exact .apply ih hf has hu
  | lambda _ hbinders hbody hu ih => exact .lambda ih hbinders hbody hu
  | define h ht hn ih =>
    obtain ⟨hs, -⟩ := Naming.ensures_ofTerm _ _ _ _ _ _ (h.sealed ht) (h.fits ht) _ _ hn
    exact .define ih ht hn hs

/-- A term that was built without names is regular, also where names are not allowed. -/
theorem regular (h : Builds s ts) (ht : t ∈ ts) (hp : t.pending = 0) : t.Regular False ∅ s :=
  (h.assembled.regular ht).of_pending (h.fits ht) hp

end Builds

/-! ### A lambda and a name for its like -/

namespace Likeness

/-- A variable that was asked for. -/
def x : Variable := ⟨"x", 1⟩

/-- Another one of the same name. -/
def y : Variable := ⟨"x", 2⟩

/-- The lambda `λ x, x B`. -/
def first : Term := .lam ⟨"x", 3⟩ (.app 1 (.var ⟨"x", 3⟩) [.native .B])

/-- The same over the other variable. -/
def second : Term := .lam ⟨"x", 4⟩ (.app 3 (.var ⟨"x", 4⟩) [.native .B])

/-- A name for the second lambda. -/
def name : Term := .named ⟨4, "T", .number 0, .bool false, .bool false, .null⟩ second

/-- What is at hand after all that was put together. -/
def terms : List Term :=
  [name, second, .app 2 (.var y) [.native .B], first, .app 0 (.var x) [.native .B], .native .B,
    .var y, .var x]

theorem assembled : Assembled ⟨5, 5, ∅⟩ terms := by
  have minted : Assembled ⟨3, 0, ∅⟩ [.native .B, .var y, .var x] :=
    .native (.mint (.mint .start rfl) rfl) nofun
  have applied : (Term.var x).apply (.plain 0) [.native .B] ⟨3, 0, ∅⟩ =
      .ok (.app 0 (.var x) [.native .B]) ⟨3, 1, ∅⟩ := rfl
  have abstracted : Term.lambdaOver (.plain 0) true [.var x] (.app 0 (.var x) [.native .B])
      ⟨3, 1, ∅⟩ = .ok first ⟨4, 2, ∅⟩ := by cbv
  have lambda : Assembled ⟨4, 2, ∅⟩
      [first, .app 0 (.var x) [.native .B], .native .B, .var y, .var x] :=
    .lambda (.apply minted (by simp) (by simp) applied) (by simp) (by simp) abstracted
  have applied : (Term.var y).apply (.plain 0) [.native .B] ⟨4, 2, ∅⟩ =
      .ok (.app 2 (.var y) [.native .B]) ⟨4, 3, ∅⟩ := rfl
  have abstracted : Term.lambdaOver (.plain 0) true [.var y] (.app 2 (.var y) [.native .B])
      ⟨4, 3, ∅⟩ = .ok second ⟨5, 4, ∅⟩ := by cbv
  have again : Assembled ⟨5, 4, ∅⟩ terms.tail :=
    .lambda (.apply lambda (by simp) (by simp) applied) (by simp) (by simp) abstracted
  have named : Naming.ofTerm (.plain 0) ⟨.number 1, .number 1⟩ (.string "T") second none false
      .null ⟨5, 4, ∅⟩ = .ok ⟨⟨4, "T", .number 0, .bool false, .bool false, .null⟩, second, none⟩
        ⟨5, 5, ∅⟩ := rfl
  exact .define again List.mem_cons_self named (Int.le_refl _)

end Likeness

/-- The lambda is equal to the name of the other one, and the two variables are not equal. -/
theorem equal_iff_sameSkeleton_sample :
    Assembled ⟨5, 5, ∅⟩ Likeness.terms ∧
      (∃ s, Likeness.first.equal (.plain 0) Likeness.name ⟨5, 5, ∅⟩ = .ok true s) ∧
      ∃ s, (Term.var Likeness.x).equal (.plain 0) (.var Likeness.y) ⟨5, 5, ∅⟩ = .ok false s := by
  have decided := (Likeness.assembled.equal_iff_sameSkeleton (.plain 0)).1
  refine ⟨Likeness.assembled, ?_, ?_⟩
  · obtain ⟨answer, s, hr, hanswer⟩ := decided Likeness.first (by simp [Likeness.terms])
      Likeness.name (by simp [Likeness.terms]) _ (Store.le_refl _)
    have same : Likeness.first.SameSkeleton Likeness.name := rfl
    exact ⟨s, hanswer.mpr same ▸ hr⟩
  · obtain ⟨answer, s, hr, hanswer⟩ := decided (.var Likeness.x) (by simp [Likeness.terms])
      (.var Likeness.y) (by simp [Likeness.terms]) _ (Store.le_refl _)
    have differ : ¬ (Term.var Likeness.x).SameSkeleton (.var Likeness.y) := by
      simp [Term.SameSkeleton, Term.skeleton, Likeness.x, Likeness.y]
    rw [Bool.eq_false_iff.mpr fun h => differ (hanswer.mp h)] at hr
    exact ⟨s, hr⟩

end Combinatory
