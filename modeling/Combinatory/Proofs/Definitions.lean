import Combinatory.Proofs.WellFormed

/-!
# What definitions mention

The definitions of the names in a regular term mention no variable of a lambda around them, so they
mention only free variables of the term. Nothing that is computed puts other names in, although it
does put names below other lambdas (`definesOver_invariant`). As no lambda binds a variable that is
free outside of it, the term that is computed is regular again, also below lambdas of variables that
have been minted since (`regular_of_definesOver`).
-/

namespace Combinatory

namespace Term

mutual

/-- Whether all names in a term meet a condition together with their definitions. -/
def Defines (P : NameInfo → Term → Prop) : Term → Prop
  | named info d => P info d ∧ Defines P d
  | lam _ b => Defines P b
  | app _ h as => Defines P h ∧ DefinesAll P as
  | _ => True

/-- Whether this holds of all terms of a list. -/
def DefinesAll (P : NameInfo → Term → Prop) : List Term → Prop
  | [] => True
  | a :: as => Defines P a ∧ DefinesAll P as

end

mutual

/-- Whether the definitions of all names in a term mention only some variables. -/
def DefinesOver (F : Set Variable) : Term → Prop
  | named _ d => (∀ v, d.occurs v = true → v ∈ F) ∧ DefinesOver F d
  | lam _ b => DefinesOver F b
  | app _ h as => DefinesOver F h ∧ DefinesOverAll F as
  | _ => True

/-- Whether this holds of all terms of a list. -/
def DefinesOverAll (F : Set Variable) : List Term → Prop
  | [] => True
  | a :: as => DefinesOver F a ∧ DefinesOverAll F as

end

variable {R : Rules} {U : Prop} {F V : Set Variable} {Γ : Scope} {s s' : Store} {t u : Term}
  {ts us : List Term} {P : NameInfo → Term → Prop}

theorem definesAll_iff : DefinesAll P ts ↔ ∀ t ∈ ts, t.Defines P := by
  induction ts with
  | nil => simp [DefinesAll]
  | cons t ts ih => rw [DefinesAll, ih, List.forall_mem_cons]

theorem definesAll_append : DefinesAll P (ts ++ us) ↔ DefinesAll P ts ∧ DefinesAll P us := by
  simp only [definesAll_iff, List.forall_mem_append]

mutual

/-- To mention only some variables is a condition on definitions. -/
theorem definesOver_iff : ∀ {t : Term},
    t.DefinesOver F ↔ t.Defines fun _ d => ∀ v, d.occurs v = true → v ∈ F
  | var _ => Iff.rfl
  | native _ => Iff.rfl
  | foreign _ => Iff.rfl
  | named _ d => and_congr_right fun _ => definesOver_iff (t := d)
  | lam _ b => definesOver_iff (t := b)
  | app _ _ _ => and_congr definesOver_iff definesOverAll_iff

theorem definesOverAll_iff : ∀ {ts : List Term},
    DefinesOverAll F ts ↔ DefinesAll (fun _ d => ∀ v, d.occurs v = true → v ∈ F) ts
  | [] => Iff.rfl
  | _ :: _ => and_congr definesOver_iff definesOverAll_iff

end

/-! ### Regular terms -/

mutual

/-- The definitions in a regular term mention what is visible outside the lambdas around it. -/
theorem Regular.definesOver : ∀ {t : Term} {V : Set Variable} {Γ : Scope}, t.Regular U V s →
    t.Fits Γ s → (∀ v ∈ Γ.visible, v ∈ F ∨ v ∈ V) → t.DefinesOver F
  | var _, _, _, _, _, _ => trivial
  | native _, _, _, _, _, _ => trivial
  | foreign _, _, _, _, _, _ => trivial
  | named _ _, _, _, ht, hfits, hΓ =>
    ⟨fun v hv => (hΓ v (hfits.2.visible hv)).resolve_right fun hV =>
        Bool.false_ne_true ((ht.2.1 v hV).symm.trans hv),
      Regular.definesOver ht.2.2 hfits.2 hΓ⟩
  | lam v b, _, _, ht, hfits, hΓ => by
    refine Regular.definesOver (t := b) ht.2 hfits.2.2 ?_
    rintro w (rfl | hw)
    · exact .inr (Set.mem_insert w _)
    · exact (hΓ w hw).imp_right (Set.mem_insert_of_mem v)
  | app _ _ _, _, _, ht, hfits, hΓ =>
    ⟨Regular.definesOver ht.2.1 hfits.2.1 hΓ, RegularAll.definesOver ht.2.2 hfits.2.2 hΓ⟩

theorem RegularAll.definesOver : ∀ {ts : List Term} {V : Set Variable} {Γ : Scope},
    RegularAll U V s ts → FitsAll Γ s ts → (∀ v ∈ Γ.visible, v ∈ F ∨ v ∈ V) →
      DefinesOverAll F ts
  | [], _, _, _, _, _ => trivial
  | _ :: _, _, _, hts, hfits, hΓ =>
    ⟨Regular.definesOver hts.1 hfits.1 hΓ, RegularAll.definesOver hts.2 hfits.2 hΓ⟩

end

mutual

/-- A regular term of combinators that stand for lambda terms is well-formed. -/
theorem Regular.wellFormed : ∀ {t : Term} {V : Set Variable} {Γ : Scope}, t.Regular U V s →
    t.Fits Γ s → t.WellFormed
  | var _, _, _, _, _ => trivial
  | native _, _, _, _, hfits => hfits
  | foreign _, _, _, ht, _ => ht.elim
  | named _ d, _, _, ht, hfits => Regular.wellFormed (t := d) ht.2.2 hfits.2
  | lam _ b, _, _, ht, hfits => Regular.wellFormed (t := b) ht.2 hfits.2.2
  | app _ _ _, _, _, ht, hfits =>
    ⟨ht.1, Regular.wellFormed ht.2.1 hfits.2.1, RegularAll.wellFormed ht.2.2 hfits.2.2⟩

theorem RegularAll.wellFormed : ∀ {ts : List Term} {V : Set Variable} {Γ : Scope},
    RegularAll U V s ts → FitsAll Γ s ts → WellFormedAll ts
  | [], _, _, _, _ => trivial
  | _ :: _, _, _, hts, hfits =>
    ⟨Regular.wellFormed hts.1 hfits.1, RegularAll.wellFormed hts.2 hfits.2⟩

end

mutual

/-- A well-formed term is regular below lambdas of some variables, if its definitions mention none
of them, but only variables that it must not bind. -/
theorem regular_of_definesOver : ∀ {t : Term} {V : Set Variable} {Γ : Scope}, t.WellFormed →
    t.DefinesOver F → t.Fits Γ s → Γ.Minted s → F ⊆ Γ.taken → (∀ v ∈ V, v ∉ F) →
      t.Regular True V s
  | var v, _, _, _, _, hfits, hΓ, _, _ => hΓ.visible v hfits
  | native _, _, _, ht, _, _, _, _, _ => regular_native ht
  | foreign _, _, _, ht, _, _, _, _, _ => ht.elim
  | named _ d, _, _, ht, hover, hfits, hΓ, hF, hV =>
    ⟨trivial, fun v hv => Bool.eq_false_iff.mpr fun h => hV v hv (hover.1 v h),
      regular_of_definesOver (t := d) ht hover.2 hfits.2 hΓ hF hV⟩
  | lam v b, _, _, ht, hover, ⟨hv, hm, hb⟩, hΓ, hF, hV => by
    refine ⟨hm, regular_of_definesOver (t := b) ht hover hb (hΓ.bind hm)
      (hF.trans (Set.subset_insert v _)) ?_⟩
    rintro w (rfl | hw)
    · exact fun h => hv (hF h)
    · exact hV w hw
  | app _ _ _, _, _, ht, hover, hfits, hΓ, hF, hV =>
    ⟨ht.1, regular_of_definesOver ht.2.1 hover.1 hfits.2.1 hΓ hF hV,
      regularAll_of_definesOver ht.2.2 hover.2 hfits.2.2 hΓ hF hV⟩

theorem regularAll_of_definesOver : ∀ {ts : List Term} {V : Set Variable} {Γ : Scope},
    WellFormedAll ts → DefinesOverAll F ts → FitsAll Γ s ts → Γ.Minted s → F ⊆ Γ.taken →
      (∀ v ∈ V, v ∉ F) → RegularAll True V s ts
  | [], _, _, _, _, _, _, _, _ => trivial
  | _ :: _, _, _, hts, hover, hfits, hΓ, hF, hV =>
    ⟨regular_of_definesOver hts.1 hover.1 hfits.1 hΓ hF hV,
      regularAll_of_definesOver hts.2 hover.2 hfits.2 hΓ hF hV⟩

end

/-! ### What is computed -/

private theorem defines_extend : ∀ (as : List Term) {t u : Term} {s s' : Store},
    t.WellFormed → t.Defines P → DefinesAll P as → extend R t as s = .ok u s' → u.Defines P
  | [], _, _, _, _, _, ht, _, h => by
    unfold extend at h
    cases h
    exact ht
  | a :: as, t, u, s, s', hwf, ht, has, h => by
    unfold extend at h
    split at h
    · cases h
      exact ⟨ht.1, definesAll_append.mpr ⟨ht.2, has⟩⟩
    · next c =>
      obtain ⟨o, s₁, ho, h⟩ := Engine.bind_ok_iff.mp h
      cases o with
      | some r =>
        have hookless : (native c).hookless = true := by
          cases c with
          | user _ => cases hwf
          | _ => rfl
        have quiet : R.quiet (native c) = true := by rw [Rules.quiet, hookless, Bool.or_true]
        obtain ⟨n, rfl⟩ := Native.numeral_of_replacement quiet ho
        exact defines_extend as (t := numeral n) rfl trivial has.2 h
      | none =>
        cases h
        exact ⟨trivial, has⟩
    · cases h
      exact ⟨ht, has⟩

/-- That a term is well-formed and its names meet a condition together with their definitions is an
invariant, whatever the rules of user combinators. A new name may violate it. -/
theorem defines_invariant (R : Rules) (P : NameInfo → Term → Prop) :
    Invariant R fun t => t.WellFormed ∧ t.Defines P where
  var _ := ⟨trivial, trivial⟩
  base hc := ⟨(wellFormed_invariant R).base hc, trivial⟩
  isPure hc := hc.1
  literal hx := hx.1
  named ht := ⟨ht.1, ht.2.2⟩
  lam := Iff.rfl
  head ht := ⟨ht.1.2.1, ht.2.1⟩
  args ht a ha := ⟨wellFormedAll_iff.mp ht.1.2.2 a ha, definesAll_iff.mp ht.2.2 a ha⟩
  apply {t as} ht has := by
    have all : WellFormedAll as := wellFormedAll_iff.mpr fun a ha => (has a ha).1
    have defined : DefinesAll P as := definesAll_iff.mpr fun a ha => (has a ha).2
    apply ((wellFormed_invariant R).apply ht.1 fun a ha => (has a ha).1).traced.imp
    rintro u ⟨hu, s, s', happly⟩
    rw [apply_eq_extend R t all.firstLiteral_eq_none] at happly
    exact ⟨hu, defines_extend as ht.1 ht.2 defined happly⟩

/-- That a term is well-formed and its definitions mention only some variables is an invariant. A
new name may mention others. -/
theorem definesOver_invariant (R : Rules) (F : Set Variable) :
    Invariant R fun t => t.WellFormed ∧ t.DefinesOver F := by
  simp only [definesOver_iff]
  exact defines_invariant R _

end Term

end Combinatory
