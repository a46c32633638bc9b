import Combinatory.Proofs.Assembly
import Combinatory.Proofs.Nameless.Substitution
import Combinatory.Proofs.Termination

/-!
# When a term is equal to its expansion

Equality looks through names in place, and an expansion is built by applying. So a term without
terminal names is equal to its expansion as long as what its names stand for stays where it is: a
name at the head of an application must not stand for an application, since the two become one, and
the successor must not be applied to a name for a numeral, since the next numeral takes their place.
This is all that matters (`Assembled.equal_expand`).
-/

namespace Combinatory

open Engine (Ensures Gives)

/-- All combinators, and names that are not terminal. -/
def Kinds.lookedThrough : Kinds := ⟨fun _ => True, fun info => info.isTerminal = false, True⟩

namespace Term

variable {R : Rules} {U : Prop} {V : Set Variable} {s : Store} {t u : Term} {ts : List Term}

/-! ### Terms without hooks -/

mutual

/-- A regular term has no user combinator with a hook. -/
theorem Regular.hookless : ∀ {t : Term} {V : Set Variable}, t.Regular U V s → t.hookless = true
  | var _, _, _ => rfl
  | native c, _, ht => by
    cases c with
    | user u =>
      rw [Term.hookless, Bool.not_eq_true']
      exact Bool.eq_false_iff.mpr fun hooked => nomatch ht.1 hooked
    | _ => rfl
  | foreign _, _, _ => rfl
  | named _ d, _, ht => Regular.hookless (t := d) ht.2.2
  | lam _ b, _, ht => Regular.hookless (t := b) ht.2
  | app _ _ _, _, ht => by
    rw [Term.hookless, Regular.hookless ht.2.1, RegularAll.hookless ht.2.2, Bool.and_self]

theorem RegularAll.hookless : ∀ {ts : List Term} {V : Set Variable}, RegularAll U V s ts →
    hooklessAll ts = true
  | [], _, _ => rfl
  | _ :: _, _, hts => by
    rw [hooklessAll, Regular.hookless hts.1, RegularAll.hookless hts.2, Bool.and_self]

end

/-! ### Expansions have no names -/

private theorem ensures_unnamed_apply {as : List Term} (ht : t.Regular U V s)
    (has : RegularAll U V s as) (hp : t.pending = 0) (hps : pendingAll as = 0) :
    Ensures (apply R t as) s fun u s' => u.Regular U V s' ∧ u.pending = 0 := by
  have quiet : R.quiet t = true := by
    rw [Rules.quiet, ht.hookless, Bool.or_true]
  apply (ensures_regular_apply ht has).traced.imp
  rintro u s' - ⟨hu, happly⟩
  refine ⟨hu, ?_⟩
  have few := pending_apply as quiet happly
  omega

private theorem ensures_unnamed_abstract {v : Variable} {b : Term}
    (hb : b.Regular U (insert v V) s) (hp : b.pending = 0) :
    Ensures (abstract R v b) s fun u s' => u.Regular U V s' ∧ u.pending = 0 := by
  obtain ⟨u, s', hr, hs, -, -, hu⟩ := gives_abstract (R := R) hb
  refine .of_ok hr hs ⟨hu.regular, ?_⟩
  rw [← pending_profile u .free, hu.profile, Skeleton.pending, pending_profile, hp]

mutual

/-- The expansion of a regular term is regular and has no names. -/
theorem ensures_unnamed_expand : ∀ (t : Term) {V : Set Variable} {s : Store}, t.Regular U V s →
    Ensures (expand R t) s fun u s' => u.Regular U V s' ∧ u.pending = 0
  | var v, _, _, ht => by
    unfold expand
    exact .pure ⟨ht, rfl⟩
  | native c, _, _, ht => by
    unfold expand
    exact .pure ⟨ht, rfl⟩
  | foreign x, _, _, ht => ht.elim
  | named info d, _, _, ht => by
    unfold expand
    exact ensures_unnamed_expand d ht.2.2
  | lam v b, _, _, ht => by
    unfold expand
    apply (ensures_unnamed_expand b ht.2).bind
    rintro b' s₁ - ⟨hb, hp⟩
    exact ensures_unnamed_abstract hb hp
  | app n h as, _, _, ⟨_, hh, has⟩ => by
    unfold expand
    apply (ensures_unnamed_expand h hh).bind
    rintro h' s₁ hs₁ ⟨hh', hp⟩
    apply (ensures_unnamed_expandAll as (has.later hs₁)).bind
    rintro as' s₂ hs₂ ⟨has', hps⟩
    exact ensures_unnamed_apply (hh'.later hs₂) has' hp hps

theorem ensures_unnamed_expandAll : ∀ (ts : List Term) {V : Set Variable} {s : Store},
    RegularAll U V s ts → Ensures (expand.expandAll R ts) s fun us s' =>
      RegularAll U V s' us ∧ pendingAll us = 0
  | [], _, _, _ => by
    unfold expand.expandAll
    exact .pure ⟨trivial, rfl⟩
  | t :: ts, _, _, hts => by
    unfold expand.expandAll
    apply (ensures_unnamed_expand t hts.1).bind
    rintro u s₁ hs₁ ⟨hu, hp⟩
    apply (ensures_unnamed_expandAll ts (hts.2.later hs₁)).bind
    rintro us s₂ hs₂ ⟨hus, hps⟩
    refine .pure ⟨⟨hu.later hs₂, hus⟩, ?_⟩
    rw [pendingAll, hp, hps]

end

/-! ### Expansions in place -/

/-- Terms with the skeletons of others are applied as these were. -/
private theorem StandsAs.of_bears {e : Places} {h h' : Term} {as as' : List Term}
    (hst : StandsAs h as) (head : h'.skeleton e = h.skeleton e)
    (args : skeletons e as' = skeletons e as)
    (hb : (h.skeleton e).bears (skeletons e as) = true) : StandsAs h' as' := by
  rw [← head, ← args, Skeleton.bears_iff] at hb
  refine ⟨?_, fun n g bs hh => ?_, fun hh n hn => ?_⟩
  · rintro rfl
    have length := congrArg List.length args
    rw [length_skeletons, length_skeletons, List.length_nil] at length
    exact hst.nonempty (List.eq_nil_of_length_eq_zero length.symm)
  · subst hh
    exact hb.1 _ _ rfl
  · obtain ⟨as, rfl⟩ := List.head?_eq_some_iff.mp hn
    subst hh
    exact hb.2 rfl n rfl

mutual

/-- Where all applications can stand with names looked through, a term has an expansion, and that
has the skeleton of the term. -/
theorem gives_expand_of_stands : ∀ (t : Term) {V : Set Variable} {s : Store} {e : Places},
    t.Regular U V s → t.MadeOf .lookedThrough → (t.skeleton e).stands = true →
      Gives (expand R t) s fun u s' => u.Regular U V s' ∧ ∀ e, u.skeleton e = t.skeleton e
  | var v, _, _, _, ht, _, _ => by
    unfold expand
    exact .pure ⟨ht, fun _ => rfl⟩
  | native c, _, _, _, ht, _, _ => by
    unfold expand
    exact .pure ⟨ht, fun _ => rfl⟩
  | foreign x, _, _, _, ht, _, _ => ht.elim
  | named info d, _, _, e, ht, plain, hst => by
    have through (e : Places) : (named info d).skeleton e = d.skeleton e := by
      rw [skeleton, plain.1]
      rfl
    rw [through] at hst
    unfold expand
    apply (gives_expand_of_stands d ht.2.2 plain.2 hst).imp
    rintro u s' - ⟨hu, same⟩
    exact ⟨hu, fun e => (same e).trans (through e).symm⟩
  | lam v b, _, _, _, ht, plain, hst => by
    unfold expand
    apply (gives_expand_of_stands (t := b) ht.2 plain hst).bind
    rintro b' s₁ - ⟨hb, same⟩
    apply (gives_abstract hb).imp
    rintro u s₂ - hu
    refine ⟨hu.regular, fun e => ?_⟩
    rw [hu.skeleton, same, skeleton]
  | app n h as, _, _, e, ⟨hst, hh, has⟩, ⟨_, plain, plains⟩, stands => by
    rw [skeleton, Skeleton.stands, Bool.and_eq_true, Bool.and_eq_true] at stands
    obtain ⟨⟨bears, head⟩, args⟩ := stands
    unfold expand
    apply (gives_expand_of_stands h hh plain head).bind
    rintro h' s₁ hs₁ ⟨hh', same⟩
    apply (gives_expandAll_of_stands as (has.later hs₁) plains args).bind
    rintro as' s₂ hs₂ ⟨has', sames⟩
    have stands' : StandsAs h' as' := hst.of_bears (same e) (sames e) bears
    have later := hh'.later hs₂
    rw [apply_eq_extend R h' has'.firstLiteral_eq_none, extend_of_stands stands' later]
    apply (Engine.gives_node h' as' s₂).imp
    rintro _ s₃ hs₃ ⟨m, rfl⟩
    refine ⟨⟨stands', later.later hs₃, has'.later hs₃⟩, fun e => ?_⟩
    rw [skeleton, same, sames, skeleton]

theorem gives_expandAll_of_stands : ∀ (ts : List Term) {V : Set Variable} {s : Store}
    {e : Places}, RegularAll U V s ts → MadeOfAll .lookedThrough ts →
      Skeleton.standsAll (skeletons e ts) = true →
      Gives (expand.expandAll R ts) s fun us s' =>
        RegularAll U V s' us ∧ ∀ e, skeletons e us = skeletons e ts
  | [], _, _, _, _, _, _ => by
    unfold expand.expandAll
    exact .pure ⟨trivial, fun _ => rfl⟩
  | t :: ts, _, _, _, hts, plains, hst => by
    rw [skeletons, Skeleton.standsAll, Bool.and_eq_true] at hst
    unfold expand.expandAll
    apply (gives_expand_of_stands t hts.1 plains.1 hst.1).bind
    rintro u s₁ hs₁ ⟨hu, same⟩
    apply (gives_expandAll_of_stands ts (hts.2.later hs₁) plains.2 hst.2).bind
    rintro us s₂ hs₂ ⟨hus, sames⟩
    refine .pure ⟨⟨hu.later hs₂, hus⟩, fun e => ?_⟩
    rw [skeletons, same, sames, skeletons]

end

/-- What equality tells of two terms. -/
def Verdict (R : Rules) (s : Store) (t u : Term) (answer : Bool) : Prop :=
  ∃ s', t.equal R u s = .ok answer s'

/-- Between regular terms equality has an answer, and it tells whether they have the same
skeleton. -/
theorem Regular.exists_verdict (ht : t.Regular U ∅ s) (hu : u.Regular U ∅ s) (R : Rules) :
    ∃ answer, Verdict R s t u answer ∧ (answer = true ↔ t.SameSkeleton u) := by
  obtain ⟨answer, s', hr, -, -, -, hanswer⟩ := gives_equal (R := R) ht hu
  exact ⟨answer, ⟨s', hr⟩, hanswer⟩

/-- Equality tells what the skeletons tell. -/
theorem Regular.verdict (ht : t.Regular U ∅ s) (hu : u.Regular U ∅ s) (R : Rules) {answer : Bool}
    (h : answer = true ↔ t.SameSkeleton u) : Verdict R s t u answer := by
  obtain ⟨told, hv, htold⟩ := ht.exists_verdict hu R
  rwa [Bool.eq_iff_iff.mpr (h.trans htold.symm)]

end Term

namespace Assembled

variable {s : Store} {ts : List Term} {t : Term}

/-- A term that was put together, without terminal names, is equal to its expansion exactly when
every application in it can stand as it is once names are looked through. Then it has an expansion,
and the two are equal to the same terms. -/
theorem equal_expand (h : Assembled s ts) (ht : t ∈ ts) (plain : t.MadeOf .lookedThrough)
    (R : Rules) {s₁ : Store} (hs : s ≤ s₁) :
    ((t.skeleton .free).stands = true → ∃ u s₂, t.expand R s₁ = .ok u s₂) ∧
    ∀ u s₂, t.expand R s₁ = .ok u s₂ → ∀ s₃, s₂ ≤ s₃ → ∀ R',
      t.Verdict R' s₃ u (t.skeleton .free).stands ∧
      u.Verdict R' s₃ t (t.skeleton .free).stands ∧
      ((t.skeleton .free).stands = true → ∀ w ∈ ts,
        (∃ answer, t.Verdict R' s₃ w answer ∧ u.Verdict R' s₃ w answer) ∧
        ∃ answer, w.Verdict R' s₃ t answer ∧ w.Verdict R' s₃ u answer) := by
  have regular := (h.regular ht).later hs
  have expands : (t.skeleton .free).stands = true →
      Gives (t.expand R) s₁ fun u s' => u.Regular True ∅ s' ∧ ∀ e, u.skeleton e = t.skeleton e :=
    Term.gives_expand_of_stands t regular plain
  refine ⟨fun stands => ?_, fun u s₂ hu s₃ hs₃ R' => ?_⟩
  · obtain ⟨u, s₂, hu, -⟩ := expands stands
    exact ⟨u, s₂, hu⟩
  · obtain ⟨hs₂, uregular, unnamed⟩ := Term.ensures_unnamed_expand t regular u s₂ hu
    have later : s₁ ≤ s₃ := Store.le_trans hs₂ hs₃
    have tlater := regular.later later
    have ulater := uregular.later hs₃
    have same : (t.skeleton .free).stands = true → t.SameSkeleton u := fun stands => by
      obtain ⟨u', s', hu', -, -, -, -, skeleton⟩ := expands stands
      rw [hu] at hu'
      cases hu'
      exact (skeleton .free).symm
    -- an expansion has no names left, so all its applications stand
    have stands : t.SameSkeleton u → (t.skeleton .free).stands = true := fun h =>
      (congrArg Skeleton.stands h).trans (uregular.stands unnamed)
    refine ⟨tlater.verdict ulater R' ⟨same, stands⟩,
      ulater.verdict tlater R' ⟨fun h => (same h).symm, fun h => stands h.symm⟩,
      fun standing w hw => ?_⟩
    have wlater := (h.regular hw).later (Store.le_trans hs later)
    have like := same standing
    obtain ⟨answer, verdict, hanswer⟩ := tlater.exists_verdict wlater R'
    obtain ⟨answer', verdict', hanswer'⟩ := wlater.exists_verdict tlater R'
    refine ⟨⟨answer, verdict, ulater.verdict wlater R' (hanswer.trans ?_)⟩,
      answer', verdict', wlater.verdict ulater R' (hanswer'.trans ?_)⟩
    · exact ⟨like.symm.trans, like.trans⟩
    · exact ⟨fun h => h.trans like, fun h => h.trans like.symm⟩

end Assembled

open Nested in
/-- The name in `x U` is an argument, so the term is equal to its expansion. -/
theorem equal_expand_nested :
    Assembled store built ∧ term ∈ built ∧ term.MadeOf .lookedThrough ∧ store ≤ store ∧
      ∃ u s, term.expand (.plain 0) store = .ok u s ∧
        term.Verdict (.plain 0) s u true ∧ u.Verdict (.plain 0) s term true := by
  have assembled := builds.assembled
  have mem : term ∈ built := List.mem_cons_self
  have plain : term.MadeOf .lookedThrough :=
    ⟨fun _ => trivial, trivial, ⟨rfl, rfl, trivial⟩, trivial⟩
  have stands : (term.skeleton .free).stands = true := rfl
  obtain ⟨expands, equal⟩ := assembled.equal_expand mem plain (.plain 0) store.le_refl
  obtain ⟨u, s, hu⟩ := expands stands
  obtain ⟨left, right, -⟩ := equal u s hu s s.le_refl (.plain 0)
  rw [stands] at left right
  exact ⟨assembled, mem, plain, store.le_refl, u, s, hu, left, right⟩

/-! ### A name for an application at a head -/

namespace Merged

/-- A free variable. -/
def f : Variable := ⟨"f", 1⟩

/-- Another one. -/
def x : Variable := ⟨"x", 2⟩

/-- A third one. -/
def y : Variable := ⟨"y", 3⟩

/-- The application `f x`. -/
def pair : Term := .app 0 (.var f) [.var x]

/-- A name for it. -/
def name : Term := .named ⟨1, "A", .number 0, .bool false, .bool false, .null⟩ pair

/-- The application of the name to `y`. -/
def term : Term := .app 2 name [.var y]

/-- All terms built on the way. -/
def built : List Term := [term, name, pair, .var y, .var x, .var f]

theorem assembled : Assembled ⟨4, 3, ∅⟩ built := by
  have minted : Assembled ⟨4, 0, ∅⟩ [.var y, .var x, .var f] :=
    .mint (.mint (.mint .start rfl) rfl) rfl
  have applied : (Term.var f).apply (.plain 0) [.var x] ⟨4, 0, ∅⟩ = .ok pair ⟨4, 1, ∅⟩ := rfl
  have paired : Assembled ⟨4, 1, ∅⟩ [pair, .var y, .var x, .var f] :=
    .apply minted (by simp) (by simp) applied
  have naming : Naming.ofTerm (.plain 0) ⟨.number 1, .number 1⟩ (.string "A") pair none false .null
      ⟨4, 1, ∅⟩ = .ok ⟨⟨1, "A", .number 0, .bool false, .bool false, .null⟩, pair, none⟩
        ⟨4, 2, ∅⟩ := rfl
  have named : Assembled ⟨4, 2, ∅⟩ [name, pair, .var y, .var x, .var f] :=
    .define paired List.mem_cons_self naming (Int.le_refl _)
  have fed : name.apply (.plain 0) [.var y] ⟨4, 2, ∅⟩ = .ok term ⟨4, 3, ∅⟩ := rfl
  exact .apply named (by simp) (by simp) fed

end Merged

open Merged in
/-- The application `A y`, where `A` is a name for `f x`, is not equal to its expansion `f x y`. -/
theorem not_equal_expand :
    Assembled ⟨4, 3, ∅⟩ built ∧ term ∈ built ∧ term.MadeOf .lookedThrough ∧
      ∃ u s, term.expand (.plain 0) ⟨4, 3, ∅⟩ = .ok u s ∧
        term.Verdict (.plain 0) s u false ∧ u.Verdict (.plain 0) s term false :=
  ⟨assembled, List.mem_cons_self,
    ⟨fun _ => trivial, ⟨rfl, fun _ => trivial, trivial, trivial, trivial⟩, trivial, trivial⟩,
    .app 4 (.var f) [.var x, .var y], ⟨4, 5, ∅⟩, rfl, ⟨_, rfl⟩, ⟨_, rfl⟩⟩

end Combinatory
