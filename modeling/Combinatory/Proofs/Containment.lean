import Combinatory.Proofs.Assembly
import Combinatory.Splitting

/-!
# The subterms that containment finds

The subterms of a term are the term itself and those of heads, arguments, bodies and definitions.
Containment looks at them in turn and finds each of them, if it has an answer at all. The binary
view of an application of several arguments shows more than that: a front, which is an application
of the head to the first of the arguments and is kept nowhere. A walk down the binary view of a term
that was put together meets nothing but subterms and fronts of them
(`Assembled.contains_of_descends`), and a front is found only if some subterm is like it
(`contains_front_missed`).
-/

namespace Combinatory

open Engine (Ensures Gives)
open Relation (ReflTransGen)

namespace Term

variable {R : Rules} {U : Prop} {V : Set Variable} {s s' : Store} {t u w h : Term}
  {as bs cs : List Term}

mutual

/-- The term, and the subterms of what it consists of. -/
def subterms (t : Term) : List Term :=
  t :: match t with
    | var _ => []
    | native _ => []
    | foreign _ => []
    | named _ d => subterms d
    | lam _ b => subterms b
    | app _ h as => subterms h ++ subtermsOfAll as

/-- The subterms of the terms of a list. -/
def subtermsOfAll (ts : List Term) : List Term :=
  match ts with
  | [] => []
  | t :: ts => subterms t ++ subtermsOfAll ts

end

theorem mem_subterms_self (t : Term) : t ∈ t.subterms := by
  unfold subterms
  exact List.mem_cons_self

/-- The subterms of a list are those of its terms. -/
theorem mem_subtermsOfAll : u ∈ subtermsOfAll as ↔ ∃ a ∈ as, u ∈ a.subterms := by
  induction as with
  | nil => simp [subtermsOfAll]
  | cons a as ih => rw [subtermsOfAll, List.mem_append, ih, List.exists_mem_cons_iff]

mutual

/-- Subterms of subterms are subterms. -/
theorem subterms_trans : ∀ {t : Term}, u ∈ t.subterms → w ∈ u.subterms → w ∈ t.subterms
  | t, hu, hw => by
    rw [subterms.eq_def, List.mem_cons] at hu
    obtain rfl | hu := hu
    · exact hw
    · rw [subterms.eq_def, List.mem_cons]
      refine .inr ?_
      cases t with
      | named info d => exact subterms_trans (t := d) hu hw
      | lam v b => exact subterms_trans (t := b) hu hw
      | app n h as =>
        dsimp only at hu ⊢
        rw [List.mem_append] at hu ⊢
        exact hu.imp (subterms_trans · hw) (subtermsOfAll_trans · hw)
      | _ => cases hu

theorem subtermsOfAll_trans : ∀ {ts : List Term}, u ∈ subtermsOfAll ts → w ∈ u.subterms →
    w ∈ subtermsOfAll ts
  | [], hu, _ => by
    rw [subtermsOfAll] at hu
    cases hu
  | _ :: _, hu, hw => by
    rw [subtermsOfAll, List.mem_append] at hu ⊢
    exact hu.imp (subterms_trans · hw) (subtermsOfAll_trans · hw)

end

theorem head_mem_subterms {n : Nat} : h ∈ (app n h as).subterms := by
  rw [subterms]
  simp [h.mem_subterms_self]

theorem arg_mem_subterms {n : Nat} {a : Term} (ha : a ∈ as) : a ∈ (app n h as).subterms := by
  rw [subterms]
  simp [mem_subtermsOfAll.mpr ⟨a, ha, a.mem_subterms_self⟩]

theorem body_mem_subterms {v : Variable} {b : Term} : b ∈ (lam v b).subterms := by
  rw [subterms]
  simp [b.mem_subterms_self]

theorem definition_mem_subterms {info : NameInfo} {d : Term} : d ∈ (named info d).subterms := by
  rw [subterms]
  simp [d.mem_subterms_self]

/-! ### Containment -/

/-- A term is equal to itself, whatever it is. -/
theorem equal_self (R : Rules) (t : Term) : equal R t t = pure true := by
  unfold equal equalBy
  rw [if_pos rfl]

mutual

/-- Containment never says no to a subterm, whatever hooks do. -/
theorem eq_true_of_contains : ∀ {t : Term} {s s' : Store} {answer : Bool}, u ∈ t.subterms →
    contains R t u s = .ok answer s' → answer = true
  | t, s, s', answer, hu, hr => by
    rw [contains.eq_def] at hr
    obtain ⟨e, s₁, he, hr⟩ := Engine.bind_ok_iff.mp hr
    rw [subterms.eq_def, List.mem_cons] at hu
    obtain rfl | hu := hu
    · rw [equal_self] at he
      cases he
      cases hr
      rfl
    · cases e with
      | true =>
        cases hr
        rfl
      | false =>
        cases t with
        | named info d => exact eq_true_of_contains (t := d) hu hr
        | lam v b => exact eq_true_of_contains (t := b) hu hr
        | app n h as =>
          dsimp only at hu
          rw [List.mem_append] at hu
          obtain ⟨e, s₂, he, hr⟩ := Engine.bind_ok_iff.mp hr
          cases e with
          | true =>
            cases hr
            rfl
          | false =>
            refine eq_true_of_anyContains (hu.resolve_left fun hu => ?_) hr
            cases eq_true_of_contains hu he
        | _ => cases hu

theorem eq_true_of_anyContains : ∀ {ts : List Term} {s s' : Store} {answer : Bool},
    u ∈ subtermsOfAll ts → anyContains R ts u s = .ok answer s' → answer = true
  | [], _, _, _, hu, _ => by
    rw [subtermsOfAll] at hu
    cases hu
  | t :: ts, s, s', answer, hu, hr => by
    rw [anyContains] at hr
    rw [subtermsOfAll, List.mem_append] at hu
    obtain ⟨e, s₁, he, hr⟩ := Engine.bind_ok_iff.mp hr
    cases e with
    | true =>
      cases hr
      rfl
    | false =>
      refine eq_true_of_anyContains (hu.resolve_left fun hu => ?_) hr
      cases eq_true_of_contains hu he

end

mutual

/-- Between regular terms containment has an answer: whether some subterm has the
skeleton. -/
theorem gives_contains : ∀ (t : Term) {V : Set Variable} {s : Store}, t.Regular U V s →
    u.Regular U ∅ s →
    Gives (contains R t u) s fun r _ => r = true ↔ ∃ p ∈ t.subterms, p.SameSkeleton u
  | t, V, s, ht, hu => by
    rw [contains.eq_def]
    apply (gives_equal (ht.anti (Set.empty_subset V)) hu).bind
    intro e s₁ hs₁ he
    cases e with
    | true => exact .pure (by simpa using ⟨t, t.mem_subterms_self, he.mp rfl⟩)
    | false =>
      have differ : ¬ t.SameSkeleton u := fun same =>
        Bool.false_ne_true (he.mpr same)
      have below : (∃ p ∈ t.subterms, p.SameSkeleton u) ↔
          ∃ p ∈ t.subterms.tail, p.SameSkeleton u := by
        unfold subterms
        rw [List.exists_mem_cons_iff, or_iff_right differ, List.tail_cons]
      rw [below, subterms.eq_def, List.tail_cons]
      cases t with
      | foreign x => exact ht.elim
      | named info d => exact gives_contains d (ht.2.2.later hs₁) (hu.later hs₁)
      | lam v b => exact gives_contains b (ht.2.later hs₁) (hu.later hs₁)
      | app n h as =>
        dsimp only
        simp only [List.mem_append, or_and_right, exists_or]
        apply (gives_contains h (ht.2.1.later hs₁) (hu.later hs₁)).bind
        intro e s₂ hs₂ he
        rw [← he]
        cases e with
        | true => exact .pure (by simp)
        | false =>
          have later := Store.le_trans hs₁ hs₂
          simpa using gives_anyContains as (ht.2.2.later later) (hu.later later)
      | _ => exact .pure (by simp)

theorem gives_anyContains : ∀ (ts : List Term) {V : Set Variable} {s : Store},
    RegularAll U V s ts → u.Regular U ∅ s →
    Gives (anyContains R ts u) s fun r _ => r = true ↔ ∃ p ∈ subtermsOfAll ts, p.SameSkeleton u
  | [], V, s, _, _ => by
    rw [anyContains, subtermsOfAll]
    exact .pure (by simp)
  | t :: ts, V, s, hts, hu => by
    rw [anyContains, subtermsOfAll]
    simp only [List.mem_append, or_and_right, exists_or]
    apply (gives_contains t hts.1 hu).bind
    intro e s₁ hs₁ he
    rw [← he]
    cases e with
    | true => exact .pure (by simp)
    | false => simpa using gives_anyContains ts (hts.2.later hs₁) (hu.later hs₁)

end

/-! ### The binary view -/

/-- What can be applied to some arguments can be applied to the first of them. -/
theorem StandsAs.front (hst : StandsAs h (bs ++ cs)) (hbs : bs ≠ []) : StandsAs h bs := by
  obtain ⟨b, bs, rfl⟩ := List.exists_cons_of_ne_nil hbs
  exact ⟨hbs, hst.flat, hst.unmet⟩

/-- The binary view of a regular application takes it apart before its last argument. A front
without arguments is the head itself. -/
theorem split_of_regular {n : Nat} {last : Term} (hr : (app n h (bs ++ [last])).Regular U V s) :
    split R h (bs ++ [last]) =
      if bs = [] then pure (h, last) else do return (← Engine.node h bs, last) := by
  obtain ⟨hst, hh, has⟩ := hr
  have hbs := (regularAll_append.mp has).1
  unfold split
  rw [List.getLast?_concat]
  dsimp only
  rw [List.dropLast_concat, apply_eq_extend R h hbs.firstLiteral_eq_none]
  split
  · next hnil =>
    subst hnil
    unfold extend
    rfl
  · next hnil => rw [extend_of_stands (hst.front hnil) hh]

/-- The binary view of a regular application: its last argument, and the head with the arguments
before, if there are any. -/
theorem ensures_split_regular {n : Nat} (hr : (app n h as).Regular U V s) :
    Ensures (split R h as) s fun p s' => p.1.Regular U V s' ∧ ∃ bs, as = bs ++ [p.2] ∧
      (bs = [] ∧ p.1 = h ∨ bs ≠ [] ∧ ∃ m, p.1 = app m h bs) := by
  obtain ⟨bs, last, rfl⟩ := (List.eq_nil_or_concat' as).resolve_left hr.1.nonempty
  rw [split_of_regular hr]
  obtain ⟨hst, hh, has⟩ := hr
  have hbs := (regularAll_append.mp has).1
  split
  · next hnil =>
    subst hnil
    exact .pure ⟨hh, [], rfl, .inl ⟨rfl, rfl⟩⟩
  · next hnil =>
    apply (Engine.ensures_node h bs s).bind
    rintro u s' hs ⟨m, rfl⟩
    exact .pure ⟨⟨hst.front hnil, hh.later hs, hbs.later hs⟩, bs, rfl, .inr ⟨hnil, m, rfl⟩⟩

/-- One step down the binary view of a term: to one half of an application, the body of a lambda or
the definition of a name. Whatever else is done in between takes no identity back. -/
inductive Descends : Term × Store → Term × Store → Prop where
  | front {R : Rules} {t front last : Term} {s s' : Store}
      (h : t.halves R s = .ok (front, last) s') : Descends (t, s) (front, s')
  | last {R : Rules} {t front last : Term} {s s' : Store}
      (h : t.halves R s = .ok (front, last) s') : Descends (t, s) (last, s')
  | body {v : Variable} {b : Term} {s : Store} : Descends (lam v b, s) (b, s)
  | definition {info : NameInfo} {d : Term} {s : Store} : Descends (named info d, s) (d, s)
  | elapse {t : Term} {s s' : Store} (hs : s ≤ s') : Descends (t, s) (t, s')

/-- Whether a term is an application of a head to some of the first arguments, but not to all, that
it is applied to in a subterm. -/
def FrontIn (t u : Term) : Prop :=
  ∃ m n h bs cs, u = app m h bs ∧ app n h (bs ++ cs) ∈ t.subterms ∧ bs ≠ [] ∧ cs ≠ []

/-- Whether a term that was met below another one is a subterm or a front in it. -/
structure Met (t : Term) (s : Store) (p : Term × Store) : Prop where
  later : s ≤ p.2
  regular : p.1.Regular True ∅ p.2
  placed : p.1 ∈ t.subterms ∨ t.FrontIn p.1

/-- Where an application is a subterm or a front, the head is applied to its arguments, and perhaps
more, in a subterm. -/
theorem exists_app_mem_subterms {n : Nat} (h : app n w as ∈ t.subterms ∨ t.FrontIn (app n w as)) :
    ∃ m cs, app m w (as ++ cs) ∈ t.subterms := by
  obtain h | ⟨m, n, g, bs, cs, happ, hmem, -, -⟩ := h
  · exact ⟨n, [], by rwa [List.append_nil]⟩
  · cases happ
    exact ⟨n, cs, hmem⟩

/-- The halves of an application that was met are met. -/
theorem Met.halves {last : Term} (hm : t.Met s (w, s')) {s₂ : Store}
    (hr : w.halves R s' = .ok (u, last) s₂) : t.Met s (u, s₂) ∧ t.Met s (last, s₂) := by
  obtain ⟨later, regular, placed⟩ := hm
  cases w with
  | app n g as =>
    obtain ⟨hs, hu, bs, rfl, hfront⟩ := ensures_split_regular regular _ _ hr
    obtain ⟨m, cs, hmem⟩ := exists_app_mem_subterms placed
    have hlast := (regularAll_append.mp regular.2.2).2.1.later hs
    have later' := Store.le_trans later hs
    have arg := subterms_trans hmem (arg_mem_subterms (a := last) (by simp))
    refine ⟨⟨later', hu, ?_⟩, later', hlast, .inl arg⟩
    obtain ⟨-, rfl⟩ | ⟨hbs, k, rfl⟩ := hfront
    · exact .inl (subterms_trans hmem head_mem_subterms)
    · rw [List.append_assoc] at hmem
      exact .inr ⟨k, m, g, bs, [last] ++ cs, rfl, hmem, hbs, List.cons_ne_nil _ _⟩
  | foreign x => exact regular.elim
  | _ => cases hr

/-- A lambda or a name that was met is a subterm. -/
theorem Met.mem_subterms (hm : t.Met s (w, s')) (happ : ∀ n h as, w ≠ app n h as) :
    w ∈ t.subterms := by
  refine hm.placed.resolve_right ?_
  rintro ⟨m, -, h, bs, -, rfl, -⟩
  exact happ m h bs rfl

/-- A step down from a term that was met leads to such a term. -/
theorem Met.descends {p q : Term × Store} (hm : t.Met s p) (h : Descends p q) : t.Met s q := by
  cases h with
  | front hr => exact (hm.halves hr).1
  | last hr => exact (hm.halves hr).2
  | body =>
    have hw := hm.mem_subterms (by simp)
    exact ⟨hm.later, hm.regular.2.anti (Set.empty_subset _),
      .inl (subterms_trans hw body_mem_subterms)⟩
  | definition =>
    have hw := hm.mem_subterms (by simp)
    exact ⟨hm.later, hm.regular.2.2, .inl (subterms_trans hw definition_mem_subterms)⟩
  | elapse hs => exact ⟨Store.le_trans hm.later hs, hm.regular.later hs, hm.placed⟩

/-- All that is met on a walk down the binary view of a regular term are subterms and fronts. -/
theorem Met.of_walk (ht : t.Regular True ∅ s) {p : Term × Store}
    (h : ReflTransGen Descends (t, s) p) : t.Met s p := by
  induction h with
  | refl => exact ⟨s.le_refl, ht, .inl t.mem_subterms_self⟩
  | tail _ hstep ih => exact ih.descends hstep

end Term

namespace Assembled

open Term

variable {s s₁ s₂ : Store} {ts : List Term} {t u : Term}

/-- What a walk down the binary view of a term that was put together leads to, is a subterm of it or
a front of one. Whether it is contained in the term always has an answer afterwards: yes for a
subterm, and for a front whether some subterm has the skeleton. Containment never says no to a
subterm of any term, whatever hooks do. -/
theorem contains_of_descends (h : Assembled s ts) (ht : t ∈ ts) (hs : s ≤ s₁)
    (walk : ReflTransGen Descends (t, s₁) (u, s₂)) (R : Rules) :
    (u ∈ t.subterms ∨ t.FrontIn u) ∧
      (∀ s₃, s₂ ≤ s₃ → ∃ answer s₄, t.contains R u s₃ = .ok answer s₄ ∧
        (u ∈ t.subterms → answer = true) ∧
        (answer = true ↔ ∃ p ∈ t.subterms, p.SameSkeleton u)) ∧
      ∀ (R' : Rules) (t' : Term) (s₃ s₄ : Store) (answer : Bool), ∀ u' ∈ t'.subterms,
        t'.contains R' u' s₃ = .ok answer s₄ → answer = true := by
  have regular := (h.regular ht).later hs
  obtain ⟨later, hu, placed⟩ := Met.of_walk regular walk
  refine ⟨placed, fun s₃ hs₃ => ?_, fun R' t' s₃ s₄ answer u' hu' => eq_true_of_contains hu'⟩
  obtain ⟨answer, s₄, hr, -, -, -, hanswer⟩ :=
    gives_contains (R := R) t (regular.later (Store.le_trans later hs₃)) (hu.later hs₃)
  exact ⟨answer, s₄, hr, fun hmem => hanswer.mpr ⟨u, hmem, rfl⟩, hanswer⟩

end Assembled

/-! ### Two arguments, and a hook that refuses what equality feeds it -/

namespace Spine

/-- Variables that were asked for. -/
def x : Variable := ⟨"x", 1⟩

def y : Variable := ⟨"y", 2⟩

def z : Variable := ⟨"z", 3⟩

/-- A variable applied to two others, `x y z`. -/
def whole : Term := .app 0 (.var x) [.var y, .var z]

/-- The front in its binary view, `x y`. -/
def front : Term := .app 1 (.var x) [.var y]

/-- The store in which it was taken apart. -/
def store : Store := ⟨4, 2, ∅⟩

theorem assembled : Assembled ⟨4, 1, ∅⟩ [whole, .var z, .var y, .var x] := by
  have minted : Assembled ⟨4, 0, ∅⟩ [.var z, .var y, .var x] :=
    .mint (.mint (.mint .start rfl) rfl) rfl
  have applied : (Term.var x).apply (.plain 0) [.var y, .var z] ⟨4, 0, ∅⟩ =
      .ok whole ⟨4, 1, ∅⟩ := rfl
  exact .apply minted (by simp) (by simp) applied

theorem halves : whole.halves (.plain 0) ⟨4, 1, ∅⟩ = .ok (front, .var z) store := rfl

/-- A combinator with a hook. -/
def wary : UserNative := ⟨0, "wary", 1, .null, true, Nat.one_pos⟩

/-- The hook leaves everything as it is, but refuses variables of one name. -/
def refusal : Rules where
  replacement _ a := if a matches .var ⟨"t", _⟩ then throw .lambdaMarkUsed else pure none
  contract _ _ := throw .tooDeep
  evaluate _ := throw .tooDeep
  hookless := false
  replacement_none h := absurd h Bool.false_ne_true

/-- A lambda over the combinator, `λ x, wary x`. -/
def guarded : Term := .lam ⟨"x", 4⟩ (.app 1 (.native (.user wary)) [.var ⟨"x", 4⟩])

/-- The lambda `λ y, y`. -/
def identity : Term := .lam ⟨"y", 5⟩ (.var ⟨"y", 5⟩)

/-- The first lambda applied to the other. -/
def refused : Term := .app 2 guarded [identity]

end Spine

/-- On the way down `x y z` the variable `y` is met, and found. -/
theorem contains_of_descends_sample :
    Assembled ⟨4, 1, ∅⟩ [Spine.whole, .var Spine.z, .var Spine.y, .var Spine.x] ∧
      ReflTransGen Term.Descends (Spine.whole, ⟨4, 1, ∅⟩) (.var Spine.y, Spine.store) ∧
      .var Spine.y ∈ Spine.whole.subterms ∧
      ∃ s, Spine.whole.contains (.plain 0) (.var Spine.y) Spine.store = .ok true s := by
  have again : Spine.front.halves (.plain 0) Spine.store =
      .ok (.var Spine.x, .var Spine.y) Spine.store := rfl
  have walk : ReflTransGen Term.Descends (Spine.whole, ⟨4, 1, ∅⟩) (.var Spine.y, Spine.store) :=
    (ReflTransGen.single (.front Spine.halves)).tail (.last again)
  have mem : .var Spine.y ∈ Spine.whole.subterms := Term.arg_mem_subterms (by simp)
  obtain ⟨-, answered, -⟩ := Spine.assembled.contains_of_descends (by simp) (Store.le_refl _) walk
    (.plain 0)
  obtain ⟨answer, s, hr, found, -⟩ := answered _ (Store.le_refl _)
  exact ⟨Spine.assembled, walk, mem, s, found mem ▸ hr⟩

/-- The term `x y z` does not contain the front `x y` of its binary view. Where hooks refuse a
variable, containment may fail before it comes to a subterm. -/
theorem contains_front_missed :
    Assembled ⟨4, 1, ∅⟩ [Spine.whole, .var Spine.z, .var Spine.y, .var Spine.x] ∧
      Spine.whole.halves (.plain 0) ⟨4, 1, ∅⟩ = .ok (Spine.front, .var Spine.z) Spine.store ∧
      Spine.whole.contains (.plain 0) Spine.front Spine.store = .ok false Spine.store ∧
      (Term.native (.user Spine.wary)).apply Spine.refusal [.var Spine.x] ⟨4, 0, ∅⟩ =
        .ok (.app 0 (.native (.user Spine.wary)) [.var Spine.x]) ⟨4, 1, ∅⟩ ∧
      Term.lambdaOver Spine.refusal true [.var Spine.x]
        (.app 0 (.native (.user Spine.wary)) [.var Spine.x]) ⟨4, 1, ∅⟩ =
        .ok Spine.guarded ⟨5, 2, ∅⟩ ∧
      Term.lambdaOver Spine.refusal true [.var Spine.y] (.var Spine.y) ⟨5, 2, ∅⟩ =
        .ok Spine.identity ⟨6, 2, ∅⟩ ∧
      Spine.guarded.apply Spine.refusal [Spine.identity] ⟨6, 2, ∅⟩ =
        .ok Spine.refused ⟨6, 3, ∅⟩ ∧
      Spine.refused.halves Spine.refusal ⟨6, 3, ∅⟩ =
        .ok (Spine.guarded, Spine.identity) ⟨6, 3, ∅⟩ ∧
      Spine.refused.contains Spine.refusal Spine.identity ⟨6, 3, ∅⟩ =
        .error .lambdaMarkUsed ⟨7, 3, ∅⟩ := by
  exact ⟨Spine.assembled, Spine.halves, rfl, rfl, rfl, rfl, rfl, rfl, rfl⟩

end Combinatory
