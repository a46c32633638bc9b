import Combinatory.Bracket
import Combinatory.Construction
import Combinatory.Naming
import Combinatory.Proofs.Ending
import Combinatory.Proofs.Reading

/-!
# Invariants of terms

Applications are made by applying and in no other way. So what applying keeps, all that builds terms
keeps: a condition that lambdas share with their bodies, that names pass on to their definitions and
applications to their parts, and that applying keeps (`Invariant`) is kept by substitution,
abstraction, the rules of the combinators, steps, runs and the search for canonical forms. A new
name meets the condition if definitions pass it on to their names.
-/

namespace Combinatory

open Engine (Ends)

/-- What a computation gives, if it gives anything, meets a condition. -/
abbrev GivesOnly {α : Type} (x : Engine α) (P : α → Prop) : Prop := Ends x (fun _ => True) P

/-- Nothing needs to be known of a result. -/
theorem givesOnly_anything {α : Type} (x : Engine α) : GivesOnly x fun _ => True := by
  intro s
  split <;> trivial

/-- If a computation meets a condition wherever it gives something, so does all that is listed. -/
theorem Listing.givesOnly_unfold {α β σ : Type} {next : σ → Engine (Option (α × σ))}
    {view : α → Except Failure β} {Inv : σ → Prop} {Q : α → Prop}
    (hnext : ∀ c, Inv c → GivesOnly (next c) fun o => ∀ r c', o = some (r, c') → Q r ∧ Inv c')
    (limit : Nat) {seed : σ} (hseed : Inv seed) :
    GivesOnly (unfold next view limit seed) fun l => ∀ y ∈ l.items, ∃ r, view r = .ok y ∧ Q r := by
  induction limit generalizing seed with
  | zero => exact .pure (by simp)
  | succ limit ih =>
    intro s
    unfold unfold
    dsimp only
    cases hx : next seed s with
    | error e s₁ => simp
    | ok o s₁ =>
      cases o with
      | none => simp
      | some rc =>
        obtain ⟨r, c⟩ := rc
        obtain ⟨hr, hc⟩ := (hnext seed hseed).of_ok hx r c rfl
        dsimp only
        cases hy : view r with
        | error e => simp
        | ok y =>
          dsimp only
          cases hrest : unfold next view limit c s₁ with
          | error e s₂ => trivial
          | ok l s₂ => exact List.forall_mem_cons.mpr ⟨⟨r, hy, hr⟩, (ih hc).of_ok hrest⟩

/-- A condition on terms that all that builds terms keeps: no literal meets it, and of the
combinators at most those that stand for lambda terms, but those that compilation ends with do. -/
structure Invariant (R : Rules) (P : Term → Prop) : Prop where
  var (v : Variable) : P (.var v)
  base {c : Native} : c.isBase = true → P (.native c)
  isPure {c : Native} : P (.native c) → c.isPure = true
  literal {x : Foreign} : ¬ P (.foreign x)
  named {info : NameInfo} {d : Term} : P (.named info d) → P d
  lam {v : Variable} {b : Term} : P (.lam v b) ↔ P b
  head {n : Nat} {h : Term} {as : List Term} : P (.app n h as) → P h
  args {n : Nat} {h : Term} {as : List Term} : P (.app n h as) → ∀ a ∈ as, P a
  apply {t : Term} {as : List Term} : P t → (∀ a ∈ as, P a) → GivesOnly (t.apply R as) P

/-- Whether a term meets a condition, if there is one. -/
abbrev IfAny (P : Term → Prop) (o : Option Term) : Prop := ∀ u, o = some u → P u

theorem IfAny.none {P : Term → Prop} : IfAny P none := by
  rintro _ ⟨⟩

theorem IfAny.some {P : Term → Prop} {u : Term} (h : P u) : IfAny P (some u) := by
  rintro _ ⟨⟩
  exact h

theorem IfAny.getD {P : Term → Prop} {o : Option Term} (ho : IfAny P o) {t : Term} (ht : P t) :
    P (o.getD t) := by
  cases o with
  | none => exact ht
  | some u => exact ho u rfl

/-- A term that meets a condition may be what is there. -/
private theorem GivesOnly.toSome {P : Term → Prop} {x : Engine Term} (hx : GivesOnly x P) :
    GivesOnly (do return some (← x)) (IfAny P) :=
  hx.bind fun _ hu => .pure (.some hu)

namespace Invariant

variable {R : Rules} {P : Term → Prop} {t : Term}

/-! ### Replacing a variable -/

mutual

theorem replace (hP : Invariant R P) {reclose : Variable → Term → Engine Term}
    (hre : ∀ w b, P b → GivesOnly (reclose w b) P) {v : Variable} {value : Term}
    (hvalue : P value) : ∀ {t : Term}, P t → GivesOnly (t.replace R reclose v value) (IfAny P)
  | .var w, _ => by
    unfold Term.replace
    refine .pure ?_
    split
    · exact .some hvalue
    · exact .none
  | .native c, _ => by
    unfold Term.replace
    exact .pure .none
  | .foreign x, ht => (hP.literal ht).elim
  | .named info d, ht => by
    unfold Term.replace
    exact hP.replace hre hvalue (t := d) (hP.named ht)
  | .lam w b, ht => by
    unfold Term.replace
    split
    · exact .pure .none
    · apply (hP.replace hre hvalue (t := b) (hP.lam.mp ht)).bind
      intro o ho
      cases o with
      | none => exact .pure .none
      | some b' => exact (hre w b' (ho b' rfl)).toSome
  | .app n h as, ht => by
    unfold Term.replace
    apply (hP.replace hre hvalue (t := h) (hP.head ht)).bind
    intro h' hh
    apply (hP.replaceAll hre hvalue (hP.args ht)).bind
    intro as' has
    split
    · exact .pure .none
    · exact (hP.apply (hh.getD (hP.head ht)) has).toSome

theorem replaceAll (hP : Invariant R P) {reclose : Variable → Term → Engine Term}
    (hre : ∀ w b, P b → GivesOnly (reclose w b) P) {v : Variable} {value : Term}
    (hvalue : P value) : ∀ {ts : List Term}, (∀ t ∈ ts, P t) →
      GivesOnly (Term.replaceAll R reclose ts v value) fun ps =>
        ∀ t ∈ ps.map fun p => p.2.getD p.1, P t
  | [], _ => by
    unfold Term.replaceAll
    exact .pure nofun
  | t :: ts, hts => by
    obtain ⟨ht, hts⟩ := List.forall_mem_cons.mp hts
    unfold Term.replaceAll
    apply (hP.replace hre hvalue ht).bind
    intro o ho
    apply (hP.replaceAll hre hvalue hts).bind
    intro ps hps
    exact .pure (List.forall_mem_cons.mpr ⟨ho.getD ht, hps⟩)

end

/-! ### Abstraction -/

/-- A body is closed over a new variable, however the lambdas in it are closed again. -/
private theorem renamed (hP : Invariant R P) {reclose : Variable → Term → Engine Term}
    (hre : ∀ w b, P b → GivesOnly (reclose w b) P) (v w : Variable) (ht : P t) :
    GivesOnly (do return (w, (← t.replace R reclose v (.var w)).getD t)) fun p => P p.2 :=
  (hP.replace hre (hP.var w) ht).bind fun _ ho => .pure (ho.getD ht)

theorem closeWithin (hP : Invariant R P) (depth : Nat) (v : Variable) (ht : P t) :
    GivesOnly (t.closeWithin R depth v) fun p => P p.2 := by
  induction depth generalizing v t with
  | zero =>
    rw [Term.closeWithin.eq_2 _ _ _ fun x hx => hP.literal (hx ▸ ht)]
    apply (Engine.ends_freshVariable v.name).bind
    intro w _
    exact hP.renamed (fun _ _ _ => .throw trivial) v w ht
  | succ depth ih =>
    rw [Term.closeWithin.eq_3 _ _ _ _ fun x hx => hP.literal (hx ▸ ht)]
    apply (Engine.ends_freshVariable v.name).bind
    intro w _
    refine hP.renamed (fun u b hb => ?_) v w ht
    exact (ih u hb).bind fun p hp => .pure (hP.lam.mpr hp)

theorem close (hP : Invariant R P) (v : Variable) (ht : P t) :
    GivesOnly (t.close R v) fun p => P p.2 :=
  hP.closeWithin t.rebuildDepth v ht

theorem abstract (hP : Invariant R P) (v : Variable) (ht : P t) :
    GivesOnly (t.abstract R v) P := by
  unfold Term.abstract
  exact (hP.close v ht).bind fun p hp => .pure (hP.lam.mpr hp)

theorem abstractAll (hP : Invariant R P) (ht : P t) :
    ∀ vs : List Variable, GivesOnly (t.abstractAll R vs) P
  | [] => .pure ht
  | v :: vs => (hP.abstractAll ht vs).bind fun _ hu => hP.abstract v hu

private theorem lambdas (hP : Invariant R P) (binders : List Term) (ht : P t) :
    GivesOnly (Term.lambdas R binders t) P := by
  unfold Term.lambdas
  split
  · exact .bind (P := fun _ => False) (.throw trivial) nofun
  · exact (givesOnly_anything _).bind fun vs _ => hP.abstractAll ht vs

/-- An abstraction keeps the invariant, however its binders are given. -/
theorem lambdaOver (hP : Invariant R P) (listed : Bool) (binders : List Term) (ht : P t) :
    GivesOnly (Term.lambdaOver R listed binders t) P := by
  unfold Term.lambdaOver
  split
  · split
    · exact hP.lambdas _ ht
    · unfold Term.lambda
      split
      · exact hP.abstract _ ht
      · exact .throw trivial
  · exact hP.lambdas _ ht

theorem subst (hP : Invariant R P) {v : Variable} {value : Term} (ht : P t) (hvalue : P value) :
    GivesOnly (t.subst R v value) (IfAny P) :=
  hP.replace (fun w _ hb => hP.abstract w hb) hvalue ht

theorem instantiate (hP : Invariant R P) {v : Variable} {b a : Term} (hb : P b) (ha : P a) :
    GivesOnly (b.instantiate R v a) P :=
  (hP.subst hb ha).bind fun _ ho => .pure (ho.getD hb)

/-! ### Halves, and names that give way -/

/-- Both halves of an application keep the invariant. -/
theorem split (hP : Invariant R P) {h : Term} {as : List Term} (hh : P h) (has : ∀ a ∈ as, P a) :
    GivesOnly (h.split R as) fun p => P p.1 ∧ P p.2 := by
  unfold Term.split
  split
  · next last hlast =>
    apply (hP.apply hh fun a ha => has a (List.dropLast_subset as ha)).bind
    exact fun front hfront => .pure ⟨hfront, has last (List.mem_of_getLast? hlast)⟩
  · exact .pure ⟨hh, hh⟩

/-- So do the halves of what should be an application. -/
theorem halves (hP : Invariant R P) (ht : P t) :
    GivesOnly (t.halves R) fun p => P p.1 ∧ P p.2 := by
  unfold Term.halves
  split
  · exact hP.split (hP.head ht) (hP.args ht)
  · exact (hP.literal ht).elim
  · exact .throw trivial

mutual

theorem expand (hP : Invariant R P) : ∀ {t : Term}, P t → GivesOnly (t.expand R) P
  | .var v, ht => by
    unfold Term.expand
    exact .pure ht
  | .native c, ht => by
    unfold Term.expand
    exact .pure ht
  | .foreign x, ht => (hP.literal ht).elim
  | .named info d, ht => by
    unfold Term.expand
    exact hP.expand (t := d) (hP.named ht)
  | .lam v b, ht => by
    unfold Term.expand
    exact (hP.expand (t := b) (hP.lam.mp ht)).bind fun _ hb => hP.abstract v hb
  | .app n h as, ht => by
    unfold Term.expand
    apply (hP.expand (t := h) (hP.head ht)).bind
    intro h' hh
    apply (hP.expandAll (hP.args ht)).bind
    exact fun as' has => hP.apply hh has

theorem expandAll (hP : Invariant R P) : ∀ {ts : List Term}, (∀ t ∈ ts, P t) →
    GivesOnly (Term.expand.expandAll R ts) fun us => ∀ u ∈ us, P u
  | [], _ => by
    unfold Term.expand.expandAll
    exact .pure nofun
  | t :: ts, hts => by
    obtain ⟨ht, hts⟩ := List.forall_mem_cons.mp hts
    unfold Term.expand.expandAll
    apply (hP.expand ht).bind
    intro u hu
    apply (hP.expandAll hts).bind
    exact fun us hus => .pure (List.forall_mem_cons.mpr ⟨hu, hus⟩)

end

/-! ### Rules -/

private theorem iterate (hP : Invariant R P) {f : Term} (hf : P f) : ∀ (n : Nat) {x : Term}, P x →
    GivesOnly (Native.iterate R f x n) P
  | 0, _, hx => .pure hx
  | n + 1, _, hx =>
    (hP.apply hf (List.forall_mem_singleton.mpr hx)).bind fun _ hu => hP.iterate hf n hu

/-- The rules of combinators that stand for lambda terms only apply one argument to others. -/
private theorem contract (hP : Invariant R P) {c : Native} (hc : c.isPure = true) {as : List Term}
    (has : ∀ a ∈ as, P a) : GivesOnly (c.contract R as) (IfAny P) := by
  unfold Native.contract
  split
  · exact .pure (.some (has _ (by simp)))
  · exact .pure (.some (has _ (by simp)))
  · next x y z rest =>
    apply (givesOnly_anything _).bind
    intro _ _
    have passed : ∀ a ∈ [z], P a := List.forall_mem_singleton.mpr (has z (by simp))
    apply (hP.apply (has y (by simp)) passed).bind
    intro yz hyz
    refine (hP.apply (has x (by simp)) ?_).toSome
    simpa using ⟨has z (by simp), hyz⟩
  · next x y z rest =>
    apply (givesOnly_anything _).bind
    intro _ _
    have passed : ∀ a ∈ [z], P a := List.forall_mem_singleton.mpr (has z (by simp))
    apply (hP.apply (has y (by simp)) passed).bind
    intro yz hyz
    exact (hP.apply (has x (by simp)) (by simpa using hyz)).toSome
  · next x y z rest =>
    apply (givesOnly_anything _).bind
    intro _ _
    refine (hP.apply (has x (by simp)) ?_).toSome
    simpa using ⟨has z (by simp), has y (by simp)⟩
  · next x y rest =>
    apply (givesOnly_anything _).bind
    intro _ _
    refine (hP.apply (has x (by simp)) ?_).toSome
    simpa using has y (by simp)
  · next n f x rest =>
    apply (givesOnly_anything _).bind
    intro _ _
    have given : ∀ a ∈ [f, x], P a := by simpa using ⟨has f (by simp), has x (by simp)⟩
    apply (hP.apply (has n (by simp)) given).bind
    intro nfx hnfx
    exact (hP.apply (has f (by simp)) (by simpa using hnfx)).toSome
  · exact (hP.iterate (has _ (by simp)) _ (has _ (by simp))).toSome
  · cases hc
  · cases hc
  · cases hc
  · exact .pure .none

theorem reduce (hP : Invariant R P) {h : Term} {as : List Term} (hh : P h) (has : ∀ a ∈ as, P a) :
    GivesOnly (h.reduce R as) (IfAny P) := by
  have rest {u : Term} (hu : P u) (n : Nat) : GivesOnly (u.apply R (as.drop n)) P :=
    hP.apply hu fun a ha => has a (List.mem_of_mem_drop ha)
  unfold Term.reduce
  split
  · next c =>
    apply (hP.contract (hP.isPure hh) has).bind
    intro o ho
    cases o with
    | none => exact .pure .none
    | some t =>
      have ht := ho t rfl
      cases t with
      | foreign x => exact (hP.literal ht).elim
      | _ => exact (rest ht c.arity).toSome
  · next v b =>
    cases as with
    | nil => exact .pure .none
    | cons a as =>
      apply (hP.instantiate (hP.lam.mp hh) (has a List.mem_cons_self)).bind
      intro u hu
      exact (rest hu 1).toSome
  · next info d =>
    apply (givesOnly_anything _).bind
    intro n _
    split
    · exact .pure .none
    · exact (rest (hP.named hh) 0).toSome
  · exact .pure .none

/-! ### Steps, runs and walks -/

mutual

theorem step (hP : Invariant R P) : ∀ {t : Term}, P t →
    GivesOnly (t.step R) fun o => ∀ r, o = some r → P r.term
  | .var v, _ => by
    unfold Term.step
    exact .pure nofun
  | .native c, _ => by
    unfold Term.step
    exact .pure nofun
  | .foreign x, ht => (hP.literal ht).elim
  | .lam v b, _ => by
    unfold Term.step
    exact .pure nofun
  | .named info d, ht => by
    unfold Term.step
    refine .pure fun r hr => ?_
    split at hr
    · cases hr
      exact hP.named ht
    · cases hr
  | .app n h as, ht => by
    unfold Term.step
    apply (Engine.ends_isSettled n).bind
    intro known _
    split
    · exact .pure nofun
    · apply (hP.reduce (hP.head ht) (hP.args ht)).bind
      intro o ho
      cases o with
      | some u =>
        refine .pure ?_
        rintro _ ⟨⟩
        exact ho u rfl
      | none =>
        apply (hP.step (t := h) (hP.head ht)).bind
        intro o ho
        cases o with
        | some h' =>
          apply (hP.apply (ho h' rfl) (hP.args ht)).bind
          intro u hu
          refine .pure ?_
          rintro _ ⟨⟩
          exact hu
        | none =>
          apply (hP.stepAmong (hP.args ht)).bind
          intro o ho
          cases o with
          | some as' =>
            apply (hP.apply (hP.head ht) (ho as' rfl)).bind
            intro u hu
            refine .pure ?_
            rintro _ ⟨⟩
            exact hu
          | none => exact (Engine.ends_settle n).bind fun _ _ => .pure nofun

theorem stepAmong (hP : Invariant R P) : ∀ {ts : List Term}, (∀ t ∈ ts, P t) →
    GivesOnly (Term.stepAmong R ts) fun o => ∀ r, o = some r → ∀ u ∈ r.terms, P u
  | [], _ => by
    unfold Term.stepAmong
    exact .pure nofun
  | t :: ts, hts => by
    obtain ⟨ht, hts⟩ := List.forall_mem_cons.mp hts
    unfold Term.stepAmong
    apply (hP.step ht).bind
    intro o ho
    cases o with
    | some t' =>
      refine .pure ?_
      rintro _ ⟨⟩
      exact List.forall_mem_cons.mpr ⟨ho t' rfl, hts⟩
    | none =>
      apply (hP.stepAmong hts).bind
      intro o ho
      cases o with
      | some ts' =>
        refine .pure ?_
        rintro _ ⟨⟩
        exact List.forall_mem_cons.mpr ⟨ht, ho ts' rfl⟩
      | none => exact .pure nofun

end

private theorem runFrom (hP : Invariant R P) (budget : Int) (ht : P t) (steps patience : Nat) :
    GivesOnly (fun s => t.runFrom R budget steps patience s) fun out => P out.term := by
  intro s
  dsimp only
  fun_induction Term.runFrom R budget t steps patience s with
  | case1 => trivial
  | case2 => exact ht
  | case3 t steps patience s _ r s₁ hstep _ _ ih => exact ih ((hP.step ht).of_ok hstep r rfl)
  | case4 => trivial
  | case5 t steps patience s _ r s₁ hstep _ ih => exact ih ((hP.step ht).of_ok hstep r rfl)
  | case6 => trivial
  | case7 => exact ht

theorem run (hP : Invariant R P) (budget : Amount) (ht : P t) {args : List Term}
    (hargs : ∀ a ∈ args, P a) (strict : Bool) :
    GivesOnly (t.run R budget args strict) fun out => P out.term := by
  unfold Term.run
  apply (hP.apply ht hargs).bind
  intro start hstart
  apply (givesOnly_anything _).bind
  intro bound _
  apply (hP.runFrom bound hstart 0 Term.patience).bind
  intro out hout
  split
  · exact .bind (P := fun _ => False) (.throw trivial) nofun
  · exact .pure hout

theorem walk (hP : Invariant R P) (budget : Option Amount) (limit : Nat) (ht : P t) :
    GivesOnly (t.walk R budget limit .ok) fun l => ∀ r ∈ l.items, P r.term := by
  have next (w : Walk) (hw : P w.term) : GivesOnly (Walk.next R budget w) fun o =>
      ∀ r w', o = some (r, w') → P r.term ∧ P w'.term := by
    unfold Walk.next
    split
    · exact .pure fun _ _ h => nomatch h
    · apply (givesOnly_anything _).bind
      intro allowed _
      split
      · exact .pure fun _ _ h => nomatch h
      · apply (hP.step hw).bind
        intro o ho
        cases o with
        | none =>
          refine .pure ?_
          rintro _ _ ⟨⟩
          exact ⟨hw, hw⟩
        | some r =>
          refine .pure ?_
          rintro _ _ ⟨⟩
          exact ⟨hw, ho r rfl⟩
  apply (Listing.givesOnly_unfold (σ := Walk) next limit ht).imp
  intro l hl r hr
  obtain ⟨r', ⟨⟩, hr⟩ := hl r hr
  exact hr

/-! ### Canonical forms -/

private theorem closeProbes (hP : Invariant R P) (probes : List Variable) (ht : P t) :
    GivesOnly (t.closeProbes R probes) fun form => P form.term := by
  unfold Term.closeProbes
  apply (givesOnly_anything _).bind
  intro symbols _
  exact (hP.abstractAll ht probes).bind fun u hu => .pure hu

private theorem searchFrom (hP : Invariant R P) (maxSteps : Amount) (left : Nat) {t : Term}
    (probes : List Variable) (spent : Nat) (ht : P t) :
    GivesOnly (t.searchFrom R maxSteps probes spent left) fun p =>
      ∀ form, p.1 = some form → P form.term := by
  induction left generalizing t probes spent with
  | zero => exact .pure nofun
  | succ left ih =>
    unfold Term.searchFrom
    apply (hP.run maxSteps ht (List.forall_mem_nil _) false).bind
    intro out hout
    dsimp only
    split
    · exact .pure nofun
    · split
      · apply (hP.closeProbes probes hout).bind
        intro form hform
        refine .pure ?_
        rintro _ ⟨⟩
        exact hform
      · apply (Engine.ends_freshVariable _).bind
        intro probe _
        apply (hP.apply hout (List.forall_mem_singleton.mpr (hP.var probe))).bind
        exact fun u hu => ih _ _ hu

theorem search (hP : Invariant R P) (limits : Budget) (ht : P t) :
    GivesOnly (t.search R limits) fun p => ∀ form, p.1 = some form → P form.term := by
  unfold Term.search
  apply (givesOnly_anything _).bind
  exact fun args _ => hP.searchFrom limits.steps args.toNat [] 0 ht

private theorem best (hP : Invariant R P) (limits : Budget) (ht : P t)
    {guess : Engine (Option Term)} (hguess : GivesOnly guess (IfAny P)) :
    GivesOnly (t.best R limits guess) (IfAny P) := by
  unfold Term.best
  apply (hP.search limits ht).bind
  rintro ⟨o, n⟩ ho
  cases o with
  | some form => exact .pure (.some (ho form rfl))
  | none => exact hguess

private theorem join (hP : Invariant R P) {front last : Option Term} (hf : IfAny P front)
    (hl : IfAny P last) : GivesOnly (Term.join R front last) (IfAny P) := by
  unfold Term.join
  split
  · next f a =>
    exact (hP.apply (hf f rfl) (List.forall_mem_singleton.mpr (hl a rfl))).toSome
  · exact .pure .none

private theorem guess (hP : Invariant R P) (limits : Budget) (t : Term) (patience : Nat)
    (ht : P t) : GivesOnly (t.guess R limits patience) (IfAny P) := by
  match t with
  | .app n h as =>
    rw [Term.guess_app]
    apply (hP.split (hP.head ht) (hP.args ht)).traced.bind
    rintro ⟨front, last⟩ ⟨⟨hf, ha⟩, s, s', hsplit⟩
    dsimp only
    by_cases hg : R.goesOn patience h = true
    · rw [if_pos hg]
      apply (hP.best limits hf (hP.guess limits front (patience - 1) hf)).bind
      intro f hf
      apply (hP.best limits ha (hP.guess limits last (patience - 1) ha)).bind
      exact fun a ha => hP.join hf ha
    · rw [if_neg hg]
      exact .throw trivial
  | .var _ | .native _ | .foreign _ | .named _ _ | .lam _ _ =>
    unfold Term.guess
    exact .pure .none
termination_by (patience, t.size)
decreasing_by
  · exact Rules.goesOn_lt hg fun hq => (Term.size_split hq hsplit).1
  · exact Rules.goesOn_lt hg fun hq => (Term.size_split hq hsplit).2

theorem canonicalize (hP : Invariant R P) (limits : Budget) (strict : Bool) (ht : P t) :
    GivesOnly (t.canonicalize R limits strict) fun c => IfAny P c.canonical := by
  unfold Term.canonicalize
  apply (hP.search limits ht).bind
  rintro ⟨o, n⟩ ho
  cases o with
  | some form => exact .pure (.some (ho form rfl))
  | none =>
    dsimp only
    split
    · exact .bind (P := fun _ => False) (.throw trivial) nofun
    · exact (hP.guess limits t Term.patience ht).bind fun o ho => .pure ho

theorem canonical (hP : Invariant R P) (limits : Budget) (ht : P t) :
    GivesOnly (t.canonical R limits) (IfAny P) := by
  unfold Term.canonical
  exact (hP.canonicalize limits false ht).bind fun c hc => .pure hc

end Invariant

/-! ### Names -/

namespace Naming

variable {R : Rules} {P : Term → Prop} {t : Term}

/-- A new name meets a condition if definitions pass it on to their names. -/
theorem givesOnly_new (hnames : ∀ info d, P d → P (.named info d)) (name : Literal)
    (arity : Amount) (proper terminal : Literal) {canonical : Option Term} (note : Literal)
    (ht : P t) (hcanonical : IfAny P canonical) :
    GivesOnly (new name t arity proper terminal canonical note) fun n =>
      P n.term ∧ IfAny P n.canonical := by
  unfold new
  split
  · exact .throw trivial
  · exact (givesOnly_anything _).bind fun ident _ => .pure ⟨hnames _ _ ht, hcanonical⟩

/-- So does a name for a term, and so does what is found of its canonical form. -/
theorem givesOnly_ofTerm (hP : Invariant R P) (hnames : ∀ info d, P d → P (.named info d))
    (limits : Budget) (name : Literal) (terminal : Option Literal) (canonize : Bool)
    (note : Literal) (ht : P t) :
    GivesOnly (ofTerm R limits name t terminal canonize note) fun n =>
      P n.term ∧ IfAny P n.canonical := by
  unfold ofTerm
  split
  · exact (hP.canonicalize limits false ht).bind fun c hc =>
      givesOnly_new hnames _ _ _ _ _ ht hc
  · exact givesOnly_new hnames _ _ _ _ _ ht .none

end Naming

end Combinatory
