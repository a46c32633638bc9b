import Combinatory.Proofs.Guarantee
import Combinatory.Proofs.Reading
import Combinatory.Proofs.Skeleton
import Combinatory.Substitution
import Mathlib.Data.Set.Insert

/-!
# Regular terms

A term is regular if every application in it is one that applying makes: it has arguments, its head
is no application, and it is not the successor of a numeral. Combinators other than the successor
must not have hooks, literals do not occur, and no name mentions a variable of a lambda around it.
Names, and combinators that stand for no lambda term, may also be ruled out altogether.
Whatever is built of regular terms is regular, since closing a term over a variable puts its
definition in place of every name that mentions the variable (`ensures_regular_close`). To build a
regular application once more makes no difference (`extend_of_stands`).
-/

namespace Combinatory

open Engine (Ensures)

namespace Term

/-- Whether an application of a head to some arguments can stand as it is. -/
structure StandsAs (h : Term) (as : List Term) : Prop where
  nonempty : as ≠ []
  flat : ∀ n g bs, h ≠ app n g bs
  unmet : h = native .successor → ∀ n, as.head? ≠ some (numeral n)

mutual

/-- Whether a term below lambdas of the variables in `V` is regular. Its variables have been
minted. Names, and combinators without a reading, occur only if `U` allows it. -/
def Regular (U : Prop) (V : Set Variable) (s : Store) : Term → Prop
  | var v => s.Minted v
  | native c => (c.hooked = true → c = .successor) ∧ (c.isPure = true ∨ U)
  | foreign _ => False
  | named _ d => U ∧ (∀ v ∈ V, d.occurs v = false) ∧ Regular U V s d
  | lam v b => s.Minted v ∧ Regular U (insert v V) s b
  | app _ h as => StandsAs h as ∧ Regular U V s h ∧ RegularAll U V s as

/-- Whether all terms of a list are regular. -/
def RegularAll (U : Prop) (V : Set Variable) (s : Store) : List Term → Prop
  | [] => True
  | a :: as => Regular U V s a ∧ RegularAll U V s as

end

variable {R : Rules} {U : Prop} {V W : Set Variable} {s s' : Store} {t : Term} {ts us : List Term}
  {v w : Variable}

theorem regularAll_iff : RegularAll U V s ts ↔ ∀ t ∈ ts, t.Regular U V s := by
  induction ts with
  | nil => simp [RegularAll]
  | cons t ts ih => rw [RegularAll, ih, List.forall_mem_cons]

theorem regularAll_append :
    RegularAll U V s (ts ++ us) ↔ RegularAll U V s ts ∧ RegularAll U V s us := by
  simp only [regularAll_iff, List.forall_mem_append]

mutual

/-- A regular term stays regular later, and below fewer lambdas. -/
theorem Regular.weaken {s s' : Store} (hs : s ≤ s') : ∀ {t : Term} {V W : Set Variable}, W ⊆ V →
    t.Regular U V s → t.Regular U W s'
  | var _, _, _, _, ht => ht.mono hs
  | native _, _, _, _, ht => ht
  | foreign _, _, _, _, ht => ht
  | named _ _, _, _, h, ht =>
    ⟨ht.1, fun v hv => ht.2.1 v (h hv), Regular.weaken hs h ht.2.2⟩
  | lam _ _, _, _, h, ht => ⟨ht.1.mono hs, Regular.weaken hs (Set.insert_subset_insert h) ht.2⟩
  | app _ _ _, _, _, h, ht =>
    ⟨ht.1, Regular.weaken hs h ht.2.1, RegularAll.weaken hs h ht.2.2⟩

theorem RegularAll.weaken {s s' : Store} (hs : s ≤ s') : ∀ {ts : List Term}
    {V W : Set Variable}, W ⊆ V → RegularAll U V s ts → RegularAll U W s' ts
  | [], _, _, _, _ => trivial
  | _ :: _, _, _, h, hts => ⟨Regular.weaken hs h hts.1, RegularAll.weaken hs h hts.2⟩

end

theorem Regular.later (ht : t.Regular U V s) (hs : s ≤ s') : t.Regular U V s' :=
  ht.weaken hs subset_rfl

theorem RegularAll.later (hts : RegularAll U V s ts) (hs : s ≤ s') : RegularAll U V s' ts :=
  hts.weaken hs subset_rfl

/-- A regular term is regular below fewer lambdas. -/
theorem Regular.anti (ht : t.Regular U V s) (h : W ⊆ V) : t.Regular U W s := ht.weaken s.le_refl h

mutual

/-- The variables of a regular term have been minted. -/
theorem Regular.minted : ∀ {t : Term} {V : Set Variable}, t.Regular U V s → t.occurs v = true →
    s.Minted v
  | var w, _, ht, h => by
    rw [occurs, decide_eq_true_iff] at h
    exact h ▸ ht
  | native _, _, _, h => by
    rw [occurs] at h
    cases h
  | foreign _, _, ht, _ => ht.elim
  | named _ _, _, ht, h => by
    rw [occurs] at h
    exact Regular.minted ht.2.2 h
  | lam _ _, _, ht, h => by
    rw [occurs, Bool.and_eq_true] at h
    exact Regular.minted ht.2 h.2
  | app _ _ _, _, ht, h => by
    rw [occurs, Bool.or_eq_true] at h
    rcases h with h | h
    · exact Regular.minted ht.2.1 h
    · exact RegularAll.minted ht.2.2 h

theorem RegularAll.minted : ∀ {ts : List Term} {V : Set Variable}, RegularAll U V s ts →
    occursAny v ts = true → s.Minted v
  | [], _, _, h => by
    rw [occursAny] at h
    cases h
  | _ :: _, _, hts, h => by
    rw [occursAny, Bool.or_eq_true] at h
    rcases h with h | h
    · exact Regular.minted hts.1 h
    · exact RegularAll.minted hts.2 h

end

/-- A variable that has not been minted does not occur in a regular term. -/
theorem Regular.occurs_eq_false (ht : t.Regular U V s) (hw : ¬ s.Minted w) :
    t.occurs w = false := by
  rw [← Bool.not_eq_true]
  exact fun h => hw (ht.minted h)

mutual

/-- A regular term is regular below a lambda of a new variable. -/
theorem Regular.insert_fresh (hw : ¬ s.Minted w) : ∀ {t : Term} {V : Set Variable},
    t.Regular U V s → t.Regular U (insert w V) s
  | var _, _, ht => ht
  | native _, _, ht => ht
  | foreign _, _, ht => ht
  | named _ d, _, ht => by
    refine ⟨ht.1, ?_, Regular.insert_fresh hw ht.2.2⟩
    rintro v (rfl | hv)
    · exact ht.2.2.occurs_eq_false hw
    · exact ht.2.1 v hv
  | lam v b, V, ht => by
    refine ⟨ht.1, ?_⟩
    rw [Set.insert_comm]
    exact Regular.insert_fresh hw ht.2
  | app _ _ _, _, ht => ⟨ht.1, Regular.insert_fresh hw ht.2.1, RegularAll.insert_fresh hw ht.2.2⟩

theorem RegularAll.insert_fresh (hw : ¬ s.Minted w) : ∀ {ts : List Term} {V : Set Variable},
    RegularAll U V s ts → RegularAll U (insert w V) s ts
  | [], _, _ => trivial
  | _ :: _, _, hts => ⟨Regular.insert_fresh hw hts.1, RegularAll.insert_fresh hw hts.2⟩

end

mutual

/-- Without names it does not matter which lambdas are around a term. -/
theorem Regular.unbound : ∀ {t : Term} {V W : Set Variable}, t.Regular False V s →
    t.Regular False W s
  | var _, _, _, ht => ht
  | native _, _, _, ht => ht
  | foreign _, _, _, ht => ht
  | named _ _, _, _, ht => ht.1.elim
  | lam _ _, _, _, ht => ⟨ht.1, Regular.unbound ht.2⟩
  | app _ _ _, _, _, ht => ⟨ht.1, Regular.unbound ht.2.1, RegularAll.unbound ht.2.2⟩

theorem RegularAll.unbound : ∀ {ts : List Term} {V W : Set Variable}, RegularAll False V s ts →
    RegularAll False W s ts
  | [], _, _, _ => trivial
  | _ :: _, _, _, hts => ⟨Regular.unbound hts.1, RegularAll.unbound hts.2⟩

end

/-- A regular term is no literal. -/
theorem Regular.literal?_eq_none (ht : t.Regular U V s) : t.literal? = none := by
  cases t with
  | foreign x => exact ht.elim
  | _ => rfl

/-- There is no literal among regular terms. -/
theorem RegularAll.firstLiteral_eq_none (hts : RegularAll U V s ts) : firstLiteral ts = none := by
  rw [firstLiteral, List.findSome?_eq_none_iff]
  intro t ht
  exact (regularAll_iff.mp hts t ht).literal?_eq_none

/-- Numerals are regular. -/
theorem regular_numeral (n : Nat) : (numeral n).Regular U V s := ⟨nofun, .inl rfl⟩

/-- Combinators that stand for a lambda term are regular. -/
theorem regular_native {c : Native} (hc : c.isPure = true) : (native c).Regular U V s := by
  refine ⟨fun hooked => ?_, .inl hc⟩
  cases c with
  | successor => rfl
  | toNumeral | lambdaMark | user u => cases hc
  | _ => cases hooked

/-! ### Skeletons of terms without names -/

/-- Only an application has the skeleton of one. -/
theorem Regular.skeleton_ne_app {e : Places} (ht : t.Regular False V s)
    (hflat : ∀ n g bs, t ≠ app n g bs) (x : Skeleton) (ys : List Skeleton) :
    t.skeleton e ≠ .app x ys := by
  cases t with
  | app n g bs => exact absurd rfl (hflat n g bs)
  | named info d => exact ht.1.elim
  | _ => simp [skeleton]

/-- Only a combinator has the skeleton of one. -/
theorem Regular.skeleton_eq_native {e : Places} {c : Native} (ht : t.Regular False V s)
    (h : t.skeleton e = .native c) : t = native c := by
  cases t with
  | native d =>
    injection h with h
    rw [h]
  | named info d => exact ht.1.elim
  | _ => simp [skeleton] at h

/-! ### Application -/

/-- A combinator replaces itself and its first argument by a numeral, if at all, and it does so when
it is the successor and its argument a numeral. -/
theorem ensures_replacement_of_regular {c : Native} (hc : (native c).Regular U V s) (a : Term) :
    Ensures (c.replacement R a) s fun o _ =>
      (∀ u, o = some u → ∃ n, u = numeral n) ∧
        (o = none → c = .successor → ∀ n, a ≠ numeral n) := by
  cases hh : c.hooked with
  | false =>
    rw [Native.replacement_eq_none R hh]
    refine .pure ⟨nofun, ?_⟩
    rintro - rfl
    cases hh
  | true =>
    rw [hc.1 hh]
    unfold Native.replacement
    dsimp only
    split
    · split
      · refine .pure ⟨?_, nofun⟩
        rintro u ⟨⟩
        exact ⟨_, rfl⟩
      · exact .throw
    · next hne => exact .pure ⟨nofun, fun _ _ n hn => hne n hn⟩

theorem ensures_regular_node {h : Term} {as : List Term} (hst : StandsAs h as)
    (hh : h.Regular U V s) (has : RegularAll U V s as) :
    Ensures (Engine.node h as) s fun u s' => u.Regular U V s' := by
  apply (Engine.ensures_node h as s).imp
  rintro u s' hs ⟨n, rfl⟩
  exact ⟨hst, hh.later hs, has.later hs⟩

theorem ensures_regular_extend : ∀ (as : List Term) {t : Term} {s : Store}, t.Regular U V s →
    RegularAll U V s as → Ensures (extend R t as) s fun u s' => u.Regular U V s'
  | [], t, s, ht, _ => by
    unfold extend
    exact .pure ht
  | a :: as, t, s, ht, has => by
    unfold extend
    split
    · next n h bs =>
      obtain ⟨hst, hh, hbs⟩ := ht
      refine ensures_regular_node ⟨?_, hst.flat, fun hsucc n => ?_⟩ hh
        (regularAll_append.mpr ⟨hbs, has⟩)
      · exact List.append_ne_nil_of_left_ne_nil hst.nonempty (a :: as)
      · obtain ⟨b, bs, rfl⟩ := List.exists_cons_of_ne_nil hst.nonempty
        exact hst.unmet hsucc n
    · next c =>
      apply (ensures_replacement_of_regular ht a).bind
      rintro o s₁ hs ⟨hsome, hnone⟩
      cases o with
      | some u =>
        obtain ⟨n, rfl⟩ := hsome u rfl
        exact ensures_regular_extend as (regular_numeral n) (has.2.later hs)
      | none =>
        refine ensures_regular_node ⟨List.cons_ne_nil a as, nofun, fun hsucc n => ?_⟩ ht
          (has.later hs)
        have unmet := hnone rfl (by injection hsucc) n
        exact fun h => unmet (by injection h)
    · next happ hnat =>
      refine ensures_regular_node ⟨List.cons_ne_nil a as, happ, ?_⟩ ht has
      exact fun hsucc => (hnat _ hsucc).elim

/-- What is made of regular terms by applying is regular. -/
theorem ensures_regular_apply (ht : t.Regular U V s) (hts : RegularAll U V s ts) :
    Ensures (apply R t ts) s fun u s' => u.Regular U V s' := by
  rw [apply_eq_extend R t hts.firstLiteral_eq_none]
  exact ensures_regular_extend ts ht hts

/-- An application that can stand as it is, is made again as it was. -/
theorem extend_of_stands {h : Term} {as : List Term} (hst : StandsAs h as) (hh : h.Regular U V s) :
    extend R h as = Engine.node h as := by
  cases as with
  | nil => exact absurd rfl hst.nonempty
  | cons a as =>
    cases h with
    | app n g bs => exact absurd rfl (hst.flat n g bs)
    | native c =>
      cases hc : c.hooked with
      | false => exact extend_native R hc a as
      | true =>
        obtain rfl := hh.1 hc
        have kept : Native.replacement R .successor a = pure none := by
          unfold Native.replacement
          dsimp only
          split
          · next n => exact absurd rfl (hst.unmet rfl n)
          · rfl
        simp [extend, kept]
    | _ => simp [extend]

/-! ### Replacing a variable -/

/-- Whether what is closed over a variable is regular if the body was. -/
def ClosesRegular (U : Prop) (reclose : Variable → Term → Engine Term) : Prop :=
  ∀ (V : Set Variable) (s : Store) (w : Variable) (b : Term), s.Minted w →
    b.Regular U (insert w V) s → Ensures (reclose w b) s fun u s' => u.Regular U V s'

mutual

/-- Putting a value in place of a variable of a regular term makes a regular term, if the value is
regular below any lambdas. -/
theorem ensures_regular_replace {reclose : Variable → Term → Engine Term}
    (hre : ClosesRegular U reclose) {v : Variable} {value : Term} :
    ∀ (t : Term) {V : Set Variable} {s : Store}, (∀ W, value.Regular U W s) → t.Regular U V s →
      Ensures (replace R reclose t v value) s fun o s' => (o.getD t).Regular U V s'
  | var w, V, s, hv, ht => by
    unfold replace
    refine .pure ?_
    split
    · exact hv V
    · exact ht
  | native c, V, s, _, ht => by
    unfold replace
    exact .pure ht
  | foreign x, V, s, _, ht => ht.elim
  | named info d, V, s, hv, ht => by
    unfold replace
    apply (ensures_regular_replace hre d hv ht.2.2).imp
    intro o s' hs ho
    cases o with
    | some u => exact ho
    | none => exact ⟨ht.1, ht.2.1, ho⟩
  | lam w b, V, s, hv, ht => by
    unfold replace
    split
    · exact .pure ht
    · apply (ensures_regular_replace hre b hv ht.2).bind
      intro o s₁ hs ho
      cases o with
      | some b' =>
        apply (hre V s₁ w b' (ht.1.mono hs) ho).bind
        intro u s₂ _ hu
        exact .pure hu
      | none => exact .pure ⟨ht.1.mono hs, ho⟩
  | app n h as, V, s, hv, ht => by
    unfold replace
    apply (ensures_regular_replace hre h hv ht.2.1).bind
    intro h' s₁ hs₁ hh
    apply (ensures_regular_replaceAll hre as (fun W => (hv W).later hs₁)
      (ht.2.2.later hs₁)).bind
    intro as' s₂ hs₂ has
    split
    · exact .pure (Regular.later (t := app n h as) ht (Store.le_trans hs₁ hs₂))
    · apply (ensures_regular_apply (hh.later hs₂) has).bind
      intro u s₃ _ hu
      exact .pure hu

theorem ensures_regular_replaceAll {reclose : Variable → Term → Engine Term}
    (hre : ClosesRegular U reclose) {v : Variable} {value : Term} :
    ∀ (ts : List Term) {V : Set Variable} {s : Store}, (∀ W, value.Regular U W s) →
      RegularAll U V s ts →
      Ensures (replaceAll R reclose ts v value) s fun ps s' =>
        RegularAll U V s' (ps.map fun p => p.2.getD p.1)
  | [], V, s, _, _ => by
    unfold replaceAll
    exact .pure trivial
  | t :: ts, V, s, hv, hts => by
    unfold replaceAll
    apply (ensures_regular_replace hre t hv hts.1).bind
    intro o s₁ hs₁ ho
    apply (ensures_regular_replaceAll hre ts (fun W => (hv W).later hs₁)
      (hts.2.later hs₁)).bind
    intro ps s₂ hs₂ hps
    exact .pure ⟨ho.later hs₂, hps⟩

end

/-! ### Closing a term over a variable -/

/-- A body closed over a new variable, with the lambdas in it closed by any means. -/
private theorem ensures_regular_closed {reclose : Variable → Term → Engine Term}
    (hre : ClosesRegular U reclose) {b : Term} (hb : b.Regular U V s) :
    Ensures (do
      let w ← Engine.freshVariable v.name
      return (w, (← replace R reclose b v (var w)).getD b)) s fun p s' =>
        (lam p.1 p.2).Regular U V s' := by
  apply (Engine.ensures_freshVariable v.name s).bind
  rintro w s₁ hs₁ ⟨hfresh, hw⟩
  have value : ∀ W, (var w).Regular U W s₁ := fun _ => hw
  apply (ensures_regular_replace hre b value ((hb.insert_fresh hfresh).later hs₁)).bind
  intro o s₂ hs₂ ho
  exact .pure ⟨hw.mono hs₂, ho⟩

theorem ensures_regular_closeWithin (depth : Nat) {v : Variable} {b : Term}
    (hb : b.Regular U V s) :
    Ensures (closeWithin R depth v b) s fun p s' => (lam p.1 p.2).Regular U V s' := by
  induction depth generalizing V s v b with
  | zero =>
    unfold closeWithin
    split
    · exact .throw
    · exact ensures_regular_closed (fun _ _ _ _ _ _ => .throw) hb
    · next h _ => cases h
  | succ depth ih =>
    unfold closeWithin
    split
    · exact .throw
    · next h _ => cases h
    · next h _ =>
      cases h
      refine ensures_regular_closed (fun W s₁ w b _ hb => ?_) hb
      apply (ih (hb.anti (Set.subset_insert w W))).bind
      intro p s₂ _ hp
      exact .pure hp

/-- What is closed over a variable is regular if the body was. -/
theorem ensures_regular_close {b : Term} (hb : b.Regular U V s) :
    Ensures (close R v b) s fun p s' => (lam p.1 p.2).Regular U V s' :=
  ensures_regular_closeWithin _ hb

/-- The abstraction of a regular term is regular. -/
theorem ensures_regular_abstract {b : Term} (hb : b.Regular U V s) :
    Ensures (abstract R v b) s fun u s' => u.Regular U V s' := by
  apply (ensures_regular_close hb).bind
  intro p s₁ _ hp
  exact .pure hp

/-- The abstraction of a regular term over several variables is regular. -/
theorem ensures_regular_abstractAll (vs : List Variable) {b : Term} (hb : b.Regular U V s) :
    Ensures (abstractAll R vs b) s fun u s' => u.Regular U V s' := by
  induction vs generalizing s with
  | nil =>
    unfold abstractAll
    exact .pure hb
  | cons v vs ih =>
    unfold abstractAll
    apply (ih hb).bind
    intro u s₁ _ hu
    exact ensures_regular_abstract hu

end Term

end Combinatory
