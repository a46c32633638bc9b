import Combinatory.Proofs.Outcome
import Combinatory.Proofs.Profile
import Combinatory.Proofs.Regular
import Mathlib.Data.List.Forall2

/-!
# Renaming a bound variable

Closing a term over a variable puts a new variable in its place, and closes every lambda in which it
occurs once more. In a regular term this never fails: every application is built again as it stands,
since replacing a variable by a variable changes the head of no application. What is closed has
the skeleton and the profile of a lambda over the old variable (`gives_close`), and a body with a
new variable in place of its own has its skeleton and its profile with the new variable placed there
(`gives_instantiate_var`).
-/

namespace Combinatory

open Engine (Gives)
open Function (update)

namespace Term

variable {R : Rules} {U : Prop} {V W : Set Variable} {s s₀ s' : Store} {t u : Term} {v w : Variable}

/-! ### Variables that do not occur -/

mutual

/-- Nothing is replaced where a variable does not occur. -/
theorem replace_of_not_occurs {reclose : Variable → Term → Engine Term} {value : Term} :
    ∀ {t : Term}, t.occurs v = false → replace R reclose t v value = pure none
  | var w, h => by
    simp only [occurs, decide_eq_false_iff_not] at h
    simp [replace, h]
  | native _, _ => by simp [replace]
  | foreign _, _ => by simp [replace]
  | named _ d, h => by
    rw [occurs] at h
    simp [replace, replace_of_not_occurs h]
  | lam w b, h => by
    by_cases hw : w = v
    · simp [replace, hw]
    · simp only [occurs, hw, ne_eq, not_false_eq_true, decide_true, Bool.true_and] at h
      simp [replace, hw, replace_of_not_occurs h]
  | app _ f as, h => by
    simp only [occurs, Bool.or_eq_false_iff] at h
    simp [replace, replace_of_not_occurs h.1, replaceAll_of_not_occurs h.2]

theorem replaceAll_of_not_occurs {reclose : Variable → Term → Engine Term} {value : Term} :
    ∀ {ts : List Term}, occursAny v ts = false →
      replaceAll R reclose ts v value = pure (ts.map fun t => (t, none))
  | [], _ => by simp [replaceAll]
  | _ :: _, h => by
    simp only [occursAny, Bool.or_eq_false_iff] at h
    simp [replaceAll, replace_of_not_occurs h.1, replaceAll_of_not_occurs h.2]

end

/-! ### What renaming keeps -/

/-- Whether two terms have the same constructor, and are the same combinator, if one. -/
def SameKind : Term → Term → Prop
  | var _, var _ => True
  | native c, native d => c = d
  | foreign x, foreign y => x = y
  | named _ _, named _ _ => True
  | lam _ _, lam _ _ => True
  | app _ _ _, app _ _ _ => True
  | _, _ => False

theorem SameKind.refl (t : Term) : t.SameKind t := by
  cases t <;> simp [SameKind]

theorem SameKind.native_iff {c : Native} (h : t.SameKind u) : t = native c ↔ u = native c := by
  cases t <;> cases u <;> simp_all [SameKind]

theorem SameKind.isApp {n : Nat} {g : Term} {bs : List Term} (h : t.SameKind (app n g bs)) :
    ∃ m f as, t = app m f as := by
  cases t with
  | app m f as => exact ⟨m, f, as, rfl⟩
  | _ => exact h.elim

/-- What heads of the same kind are applied to can stand if it could. -/
theorem StandsAs.sameKind {h h' : Term} {as as' : List Term} (hst : StandsAs h as)
    (hh : h.SameKind h') (has : List.Forall₂ SameKind as as') : StandsAs h' as' := by
  refine ⟨?_, ?_, ?_⟩
  · rintro rfl
    cases has
    exact hst.nonempty rfl
  · rintro n g bs rfl
    obtain ⟨m, f, cs, rfl⟩ := hh.isApp
    exact hst.flat m f cs rfl
  · intro hsucc n hn
    cases has with
    | nil => exact hst.nonempty rfl
    | cons ha _ =>
      injection hn with hn
      exact hst.unmet (hh.native_iff.mpr hsucc) n (congrArg some (ha.native_iff.mpr hn))

/-- What becomes of a term when one variable in it is renamed to another. -/
structure Renames (U : Prop) (V : Set Variable) (s : Store) (v w : Variable) (t u : Term) :
    Prop where
  regular : u.Regular U V s
  depth : u.lambdaDepth = t.lambdaDepth
  kind : t.SameKind u
  skeleton : ∀ e, u.skeleton e = t.skeleton (update e v (e w))
  profile : ∀ e, u.profile e = t.profile (update e v (e w))

/-- What becomes of the terms of a list when one variable in them is renamed to another. -/
abbrev RenamesAll (U : Prop) (V : Set Variable) (s : Store) (v w : Variable) :
    List Term → List Term → Prop :=
  List.Forall₂ (Renames U V s v w)

namespace Renames

theorem later (h : Renames U V s v w t u) (hs : s ≤ s') : Renames U V s' v w t u :=
  ⟨h.regular.later hs, h.depth, h.kind, h.skeleton, h.profile⟩

/-- A term in which a variable does not occur stays. -/
theorem kept (ht : t.Regular U V s) (hv : t.occurs v = false) : Renames U V s v w t t := by
  have absent (e : Places) : ∀ x, t.occurs x = true → e x = update e v (e w) x := by
    intro x hx
    rw [Function.update_of_ne]
    rintro rfl
    rw [hv] at hx
    cases hx
  exact ⟨ht, rfl, .refl t, fun e => skeleton_congr (absent e), fun e => profile_congr (absent e)⟩

end Renames

namespace RenamesAll

variable {ts us : List Term}

theorem regular (h : RenamesAll U V s v w ts us) : RegularAll U V s us := by
  induction h with
  | nil => trivial
  | cons h _ ih => exact ⟨h.regular, ih⟩

theorem depth (h : RenamesAll U V s v w ts us) : lambdaDepthOfAll us = lambdaDepthOfAll ts := by
  induction h with
  | nil => rfl
  | cons h _ ih => rw [lambdaDepthOfAll, lambdaDepthOfAll, h.depth, ih]

theorem skeleton (h : RenamesAll U V s v w ts us) (e : Places) :
    skeletons e us = skeletons (update e v (e w)) ts := by
  induction h with
  | nil => rfl
  | cons h _ ih => rw [skeletons, skeletons, h.skeleton, ih]

theorem profile (h : RenamesAll U V s v w ts us) (e : Places) :
    profiles e us = profiles (update e v (e w)) ts := by
  induction h with
  | nil => rfl
  | cons h _ ih => rw [profiles, profiles, h.profile, ih]

end RenamesAll

/-- Places below a lambda, where neither variable is the lambda's own. -/
theorem update_bind {e : Places} {x : Variable} (hv : x ≠ v) (hw : w ≠ x) :
    update (e.bind x) v (e.bind x w) = Places.bind (update e v (e w)) x := by
  funext y
  by_cases hy : y = v
  · subst hy
    rw [Function.update_self, Places.bind_of_ne hw, Places.bind_of_ne (Ne.symm hv),
      Function.update_self]
  · by_cases hyx : y = x
    · simp [hyx, hv]
    · rw [Function.update_of_ne hy, Places.bind_of_ne hyx, Places.bind_of_ne hyx,
        Function.update_of_ne hy]

/-! ### Renaming -/

/-- What a body becomes when it is closed over one of its variables: a lambda with the skeleton and
the profile of one over that variable. -/
structure LambdaOf (U : Prop) (V : Set Variable) (s : Store) (v : Variable) (b u : Term) :
    Prop where
  isLam : ∃ w c, u = lam w c
  regular : u.Regular U V s
  depth : u.lambdaDepth = b.lambdaDepth + 1
  skeleton : ∀ e, u.skeleton e = .lam (b.skeleton (e.bind v))
  profile : ∀ e, u.profile e = .lam (b.profile (e.bind v))

/-- Whether bodies in which lambdas nest less than `depth` deep can be closed again. -/
def Rebinds (U : Prop) (reclose : Variable → Term → Engine Term) (depth : Nat) : Prop :=
  ∀ (V : Set Variable) (s : Store) (x : Variable) (b : Term), s.Minted x →
    b.Regular U (insert x V) s → b.lambdaDepth < depth →
    Gives (reclose x b) s fun u s' => LambdaOf U V s' x b u

/-- An application of terms of the same kinds is made as it stands. -/
private theorem gives_apply_of_stands {h : Term} {as : List Term} (hst : StandsAs h as)
    (hh : h.Regular U V s) (has : RegularAll U V s as) :
    Gives (apply R h as) s fun u _ => ∃ n, u = app n h as := by
  rw [apply_eq_extend R h has.firstLiteral_eq_none, extend_of_stands hst hh]
  exact Engine.gives_node h as s

mutual

/-- A variable below its lambda is renamed to one that was minted after the term was built. -/
theorem gives_rename {reclose : Variable → Term → Engine Term} {depth : Nat}
    (hre : Rebinds U reclose depth) (hfresh : ¬ s₀.Minted w) : ∀ (t : Term) {V : Set Variable}
    {s : Store}, t.Regular U V s₀ → v ∈ V → s₀ ≤ s → s.Minted w → t.lambdaDepth ≤ depth →
      Gives (replace R reclose t v (var w)) s fun o s' => Renames U V s' v w t (o.getD t)
  | var x, V, s, ht, _, hs, hw, _ => by
    unfold replace
    by_cases hx : x = v
    · subst hx
      simp only [isNull, literal?, decide_true, Bool.not_false, Bool.and_self, if_true]
      refine .pure ⟨hw, rfl, trivial, fun e => ?_, fun e => ?_⟩
      · rw [Option.getD_some, Term.skeleton, Term.skeleton, Function.update_self]
      · rw [Option.getD_some, Term.profile, Term.profile, Function.update_self]
    · simp only [hx, decide_false, Bool.false_and, Bool.false_eq_true, if_false]
      exact .pure (.kept (ht.later hs) (by simp [occurs, hx]))
  | native c, V, s, ht, _, _, _, _ => by
    unfold replace
    exact .pure (.kept ht rfl)
  | foreign x, _, _, ht, _, _, _, _ => ht.elim
  | named info d, V, s, ht, hv, hs, _, _ => by
    have absent : d.occurs v = false := ht.2.1 v hv
    rw [replace_of_not_occurs (by rwa [occurs])]
    exact .pure (.kept (Regular.later (t := named info d) ht hs) (by rwa [occurs]))
  | lam x b, V, s, ht, hv, hs, hw, hd => by
    have fresh : w ≠ x := by
      rintro rfl
      exact hfresh ht.1
    unfold replace
    split
    · next hx =>
      subst hx
      exact .pure (.kept (Regular.later (t := lam x b) ht hs) (by simp [occurs]))
    · next hx =>
      rw [lambdaDepth] at hd
      apply (gives_rename hre hfresh b ht.2 (Set.mem_insert_of_mem x hv) hs hw (by omega)).bind
      intro o s₁ hs₁ ho
      have below (e : Places) :
          (o.getD b).skeleton (e.bind x) = b.skeleton (Places.bind (update e v (e w)) x) := by
        rw [ho.skeleton, update_bind hx fresh]
      have closed (e : Places) :
          (o.getD b).profile (e.bind x) = b.profile (Places.bind (update e v (e w)) x) := by
        rw [ho.profile, update_bind hx fresh]
      cases o with
      | some b' =>
        have shallow : b'.lambdaDepth < depth := by
          rw [show b'.lambdaDepth = b.lambdaDepth from ho.depth]
          omega
        apply (hre V s₁ x b' (ht.1.mono (Store.le_trans hs hs₁)) ho.regular shallow).bind
        rintro u s₂ - ⟨⟨y, c, rfl⟩, hreg, hdepth, hskel, hprof⟩
        refine .pure ⟨hreg, ?_, trivial, fun e => ?_, fun e => ?_⟩
        · rw [Option.getD_some, hdepth, lambdaDepth, show b'.lambdaDepth = _ from ho.depth]
        · rw [Option.getD_some, hskel, Term.skeleton, ← below]
          rfl
        · rw [Option.getD_some, hprof, Term.profile, ← closed]
          rfl
      | none =>
        refine .pure ⟨⟨ht.1.mono (Store.le_trans hs hs₁), ho.regular⟩, rfl, trivial, fun e => ?_,
          fun e => ?_⟩
        · rw [Option.getD_none, Term.skeleton, Term.skeleton, ← below]
          rfl
        · rw [Option.getD_none, Term.profile, Term.profile, ← closed]
          rfl
  | app n h as, V, s, ht, hv, hs, hw, hd => by
    obtain ⟨hst, hh, has⟩ := ht
    rw [lambdaDepth] at hd
    unfold replace
    apply (gives_rename hre hfresh h hh hv hs hw (by omega)).bind
    intro h' s₁ hs₁ hh'
    apply (gives_renameAll hre hfresh as has hv (Store.le_trans hs hs₁) (hw.mono hs₁)
      (by omega)).bind
    rintro ps s₂ hs₂ ⟨hfst, hps⟩
    have renamed : StandsAs (h'.getD h) (ps.map fun p => p.2.getD p.1) :=
      hst.sameKind hh'.kind (hps.imp fun _ _ h => h.kind)
    have parts (m : Nat) {s' : Store} (hs' : s₂ ≤ s') : Renames U V s' v w (app n h as)
        (app m (h'.getD h) (ps.map fun p => p.2.getD p.1)) := by
      refine ⟨⟨renamed, hh'.regular.later (Store.le_trans hs₂ hs'), hps.regular.later hs'⟩, ?_,
        trivial, fun e => ?_, fun e => ?_⟩
      · rw [lambdaDepth, lambdaDepth, hh'.depth, hps.depth]
      · rw [Term.skeleton, Term.skeleton, hh'.skeleton, hps.skeleton]
      · rw [Term.profile, Term.profile, hh'.profile, hps.profile]
    split
    · next hnone =>
      rw [Bool.and_eq_true, Option.isNone_iff_eq_none] at hnone
      refine .pure ?_
      have same := parts n s₂.le_refl
      rw [hnone.1, map_getD_of_isNone hnone.2, hfst] at same
      exact same
    · apply (gives_apply_of_stands renamed (hh'.regular.later hs₂) hps.regular).bind
      rintro u s₃ hs₃ ⟨m, rfl⟩
      exact .pure (parts m hs₃)

theorem gives_renameAll {reclose : Variable → Term → Engine Term} {depth : Nat}
    (hre : Rebinds U reclose depth) (hfresh : ¬ s₀.Minted w) : ∀ (ts : List Term)
    {V : Set Variable} {s : Store}, RegularAll U V s₀ ts → v ∈ V → s₀ ≤ s → s.Minted w →
      lambdaDepthOfAll ts ≤ depth →
      Gives (replaceAll R reclose ts v (var w)) s fun ps s' => ps.map Prod.fst = ts ∧
        RenamesAll U V s' v w ts (ps.map fun p => p.2.getD p.1)
  | [], V, s, _, _, _, _, _ => by
    unfold replaceAll
    exact .pure ⟨rfl, .nil⟩
  | t :: ts, V, s, hts, hv, hs, hw, hd => by
    rw [lambdaDepthOfAll] at hd
    unfold replaceAll
    apply (gives_rename hre hfresh t hts.1 hv hs hw (by omega)).bind
    intro o s₁ hs₁ ho
    apply (gives_renameAll hre hfresh ts hts.2 hv (Store.le_trans hs hs₁) (hw.mono hs₁)
      (by omega)).bind
    rintro ps s₂ hs₂ ⟨hfst, hps⟩
    refine .pure ⟨?_, .cons (ho.later hs₂) hps⟩
    rw [List.map_cons, hfst]

end

/-! ### A new variable in place of one -/

/-- Below a lambda of a new variable that was put in place of one, what occurs stands where it does
below a lambda of the old one. -/
private theorem update_bind_fresh (ht : t.Regular U V s) (hfresh : ¬ s.Minted w) (e : Places) :
    ∀ x, t.occurs x = true → update (e.bind w) v (e.bind w w) x = e.bind v x := by
  intro x hx
  have hxw : x ≠ w := by
    rintro rfl
    exact hfresh (ht.minted hx)
  by_cases hxv : x = v
  · simp [hxv]
  · rw [Function.update_of_ne hxv, Places.bind_of_ne hxw, Places.bind_of_ne hxv]

/-- A new variable in place of one leaves the skeleton, below lambdas of the two. -/
theorem Renames.skeleton_bind (h : Renames U V s' v w t u) (ht : t.Regular U W s)
    (hfresh : ¬ s.Minted w) (e : Places) : u.skeleton (e.bind w) = t.skeleton (e.bind v) :=
  (h.skeleton _).trans (skeleton_congr (update_bind_fresh ht hfresh e))

/-- A new variable in place of one leaves the profile, below lambdas of the two. -/
theorem Renames.profile_bind (h : Renames U V s' v w t u) (ht : t.Regular U W s)
    (hfresh : ¬ s.Minted w) (e : Places) : u.profile (e.bind w) = t.profile (e.bind v) :=
  (h.profile _).trans (profile_congr (update_bind_fresh ht hfresh e))

/-! ### Closing a term over a variable -/

/-- A body closed over a new variable, with the lambdas in it closed by any means. -/
private theorem gives_closed {reclose : Variable → Term → Engine Term} {depth : Nat}
    (hre : Rebinds U reclose depth) {b : Term} (hb : b.Regular U (insert v V) s)
    (hd : b.lambdaDepth ≤ depth) :
    Gives (do
      let w ← Engine.freshVariable v.name
      return (w, (← replace R reclose b v (var w)).getD b)) s fun p s' =>
        LambdaOf U V s' v b (lam p.1 p.2) := by
  apply (Engine.gives_freshVariable v.name s).bind
  rintro w s₁ hs₁ ⟨hfresh, hw⟩
  have below : v ∈ insert w (insert v V) := Set.mem_insert_of_mem w (Set.mem_insert v V)
  apply (gives_rename hre hfresh b (hb.insert_fresh hfresh) below hs₁ hw hd).bind
  intro o s₂ hs₂ ho
  refine .pure ⟨⟨_, _, rfl⟩, ⟨hw.mono hs₂, ?_⟩, ?_, fun e => ?_, fun e => ?_⟩
  · exact ho.regular.anti (Set.insert_subset_insert (Set.subset_insert v V))
  · rw [lambdaDepth, ho.depth]
  · rw [Term.skeleton, ho.skeleton_bind hb hfresh]
  · rw [Term.profile, ho.profile_bind hb hfresh]

theorem gives_closeWithin {depth : Nat} {b : Term} (hb : b.Regular U (insert v V) s)
    (hd : b.lambdaDepth ≤ depth) :
    Gives (closeWithin R depth v b) s fun p s' => LambdaOf U V s' v b (lam p.1 p.2) := by
  induction depth generalizing V s v b with
  | zero =>
    unfold closeWithin
    split
    · exact hb.elim
    · exact gives_closed (fun _ _ _ _ _ _ h => (Nat.not_lt_zero _ h).elim) hb hd
    · next h _ => cases h
  | succ depth ih =>
    unfold closeWithin
    split
    · exact hb.elim
    · next h _ => cases h
    · next h _ =>
      cases h
      refine gives_closed (fun W s₁ x b _ hb hd => ?_) hb hd
      apply (ih hb (Nat.le_of_lt_succ hd)).bind
      intro p s₂ _ hp
      exact .pure hp

/-- What is closed over a variable has the skeleton and the profile of a lambda over it. -/
theorem gives_close {b : Term} (hb : b.Regular U (insert v V) s) :
    Gives (close R v b) s fun p s' => LambdaOf U V s' v b (lam p.1 p.2) :=
  gives_closeWithin hb (Nat.le_add_right _ _)

/-- The abstraction of a term over a variable has the skeleton and the profile of a lambda over
it. -/
theorem gives_abstract {b : Term} (hb : b.Regular U (insert v V) s) :
    Gives (abstract R v b) s fun u s' => LambdaOf U V s' v b u := by
  apply (gives_close hb).bind
  intro p s₁ _ hp
  exact .pure hp

/-- Abstraction closes bodies again, however deep their lambdas nest. -/
theorem rebinds_abstract (depth : Nat) : Rebinds U (abstract R) depth :=
  fun _ _ _ _ _ hb _ => gives_abstract hb

/-- The body of a lambda with a new variable in place of its own. -/
theorem gives_instantiate_var {b : Term} (hb : b.Regular U (insert v V) s₀) (hfresh : ¬ s₀.Minted w)
    (hs : s₀ ≤ s) (hw : s.Minted w) :
    Gives (instantiate R v b (var w)) s fun u s' => Renames U (insert v V) s' v w b u := by
  apply (gives_rename (rebinds_abstract b.lambdaDepth) hfresh b hb (Set.mem_insert v V) hs hw
    (Nat.le_refl _)).bind
  intro o s₁ _ ho
  exact .pure ho

end Term

end Combinatory
