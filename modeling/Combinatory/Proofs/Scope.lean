import Combinatory.Proofs.Guarantee
import Combinatory.Proofs.Reading
import Mathlib.Data.Set.Insert

/-!
# Binder hygiene

A scope says which variables may occur free in a term, which of them no lambda in it may bind, and
whether names may occur. A term fits a scope when that holds of all its parts, every lambda binds a
variable that is taken below it, every application has an argument, and every combinator has a
reading. So the binder of a lambda
is bound again nowhere below it. As the engine mints binders, terms fit the scope of their own free
variables, and this is why substitution captures nothing.
-/

namespace Combinatory

/-- What a term may look like: its free variables, the variables that it must not bind, and whether
names may occur in it. -/
structure Scope where
  visible : Set Variable
  taken : Set Variable
  names : Prop

namespace Scope

/-- The scope in which one more variable may occur free. -/
def see (Γ : Scope) (v : Variable) : Scope := { Γ with visible := insert v Γ.visible }

/-- The scope below a lambda: its variable may occur, and must not be bound again. -/
def bind (Γ : Scope) (v : Variable) : Scope where
  visible := insert v Γ.visible
  taken := insert v Γ.taken
  names := Γ.names

/-- The scope of terms over some free variables, none of which may be bound. -/
def ofFree (F : Set Variable) : Scope := ⟨F, F, True⟩

/-- One scope is below another if every term that fits the one fits the other. -/
structure Below (Γ Δ : Scope) : Prop where
  visible : ∀ v ∈ Γ.visible, v ∈ Δ.visible
  taken : ∀ v ∈ Δ.taken, v ∈ Γ.taken
  names : Γ.names → Δ.names

/-- All variables of a scope have been minted. -/
structure Minted (Γ : Scope) (s : Store) : Prop where
  visible : ∀ v ∈ Γ.visible, s.Minted v
  taken : ∀ v ∈ Γ.taken, s.Minted v

theorem Minted.later {Γ : Scope} {s s' : Store} (hΓ : Γ.Minted s) (h : s ≤ s') : Γ.Minted s' :=
  ⟨fun v hv => (hΓ.visible v hv).mono h, fun v hv => (hΓ.taken v hv).mono h⟩

theorem Minted.bind {Γ : Scope} {s : Store} (hΓ : Γ.Minted s) {v : Variable} (hv : s.Minted v) :
    (Γ.bind v).Minted s := by
  constructor
  · rintro w (rfl | hw)
    · exact hv
    · exact hΓ.visible w hw
  · rintro w (rfl | hw)
    · exact hv
    · exact hΓ.taken w hw

theorem Minted.see {Γ : Scope} {s : Store} (hΓ : Γ.Minted s) {v : Variable} (hv : s.Minted v) :
    (Γ.see v).Minted s :=
  ⟨(hΓ.bind hv).visible, hΓ.taken⟩

/-- No free variable of a term may be bound in it, and what must not be bound has been minted. -/
structure Sealed (Γ : Scope) (s : Store) : Prop where
  visible : ∀ v ∈ Γ.visible, v ∈ Γ.taken
  taken : ∀ v ∈ Γ.taken, s.Minted v

theorem Sealed.minted {Γ : Scope} {s : Store} (hΓ : Γ.Sealed s) : Γ.Minted s :=
  ⟨fun v hv => hΓ.taken v (hΓ.visible v hv), hΓ.taken⟩

theorem Sealed.later {Γ : Scope} {s s' : Store} (hΓ : Γ.Sealed s) (h : s ≤ s') : Γ.Sealed s' :=
  ⟨hΓ.visible, fun v hv => (hΓ.taken v hv).mono h⟩

theorem Sealed.bind {Γ : Scope} {s : Store} (hΓ : Γ.Sealed s) {v : Variable} (hv : s.Minted v) :
    (Γ.bind v).Sealed s := by
  refine ⟨?_, (hΓ.minted.bind hv).taken⟩
  rintro w (rfl | hw)
  · exact Set.mem_insert w _
  · exact Set.mem_insert_of_mem v (hΓ.visible w hw)

/-- Going below a lambda respects the order of scopes. -/
theorem Below.bind {Γ Δ : Scope} (h : Γ.Below Δ) (v : Variable) : (Γ.bind v).Below (Δ.bind v) := by
  refine ⟨?_, ?_, h.names⟩
  · rintro w (rfl | hw)
    · exact Set.mem_insert w _
    · exact Set.mem_insert_of_mem v (h.visible w hw)
  · rintro w (rfl | hw)
    · exact Set.mem_insert w _
    · exact Set.mem_insert_of_mem v (h.taken w hw)

theorem Below.trans {Γ Δ Θ : Scope} (h : Γ.Below Δ) (h' : Δ.Below Θ) : Γ.Below Θ :=
  ⟨fun v hv => h'.visible v (h.visible v hv), fun v hv => h.taken v (h'.taken v hv),
    h'.names ∘ h.names⟩

/-- Seeing one more variable respects the order of scopes, also where it must not be bound. -/
theorem Below.bind_see {Γ Δ : Scope} (h : Γ.Below Δ) (v : Variable) :
    (Γ.bind v).Below (Δ.see v) :=
  ⟨(h.bind v).visible, fun w hw => Set.mem_insert_of_mem v (h.taken w hw), h.names⟩

theorem Below.refl (Γ : Scope) : Γ.Below Γ := ⟨fun _ h => h, fun _ h => h, id⟩

/-- One more variable may be seen. -/
theorem below_see (Γ : Scope) (v : Variable) : Γ.Below (Γ.see v) :=
  ⟨fun _ hw => Set.mem_insert_of_mem v hw, fun _ hw => hw, id⟩

/-- A variable seen above a lambda is seen below it. -/
theorem see_bind_below (Γ : Scope) (v w : Variable) :
    ((Γ.see v).bind w).Below ((Γ.bind w).see v) := by
  refine ⟨?_, fun _ hx => hx, id⟩
  rintro x (rfl | rfl | hx)
  · exact Or.inr (Or.inl rfl)
  · exact Or.inl rfl
  · exact Or.inr (Or.inr hx)

/-- The scope in which some more variables may occur free. -/
def seeAll (Γ : Scope) (vs : List Variable) : Scope := vs.foldl see Γ

/-- The scope below lambdas of some variables. -/
def bindAll (Γ : Scope) (vs : List Variable) : Scope := vs.foldl bind Γ

/-- What may be seen are the variables of a scope and those added to it. -/
theorem mem_visible_seeAll {Γ : Scope} {vs : List Variable} {v : Variable} :
    v ∈ (Γ.seeAll vs).visible ↔ v ∈ Γ.visible ∨ v ∈ vs := by
  induction vs generalizing Γ with
  | nil => simp [seeAll]
  | cons w vs ih =>
    refine (ih (Γ := Γ.see w)).trans ?_
    rw [List.mem_cons, ← or_assoc, or_comm (a := v ∈ Γ.visible)]
    rfl

/-- More variables may be seen. -/
theorem below_seeAll (Γ : Scope) (vs : List Variable) : Γ.Below (Γ.seeAll vs) := by
  induction vs generalizing Γ with
  | nil => exact .refl Γ
  | cons v vs ih => exact (Γ.below_see v).trans (ih (Γ.see v))

/-- One lambda more below lambdas of some variables. -/
theorem bindAll_append (Γ : Scope) (vs : List Variable) (v : Variable) :
    Γ.bindAll (vs ++ [v]) = (Γ.bindAll vs).bind v := by
  rw [bindAll, List.foldl_append]
  rfl

theorem Sealed.bindAll {Γ : Scope} {s : Store} (hΓ : Γ.Sealed s) {vs : List Variable}
    (hvs : ∀ v ∈ vs, s.Minted v) : (Γ.bindAll vs).Sealed s := by
  induction vs generalizing Γ with
  | nil => exact hΓ
  | cons v vs ih =>
    obtain ⟨hv, hvs⟩ := List.forall_mem_cons.mp hvs
    exact ih (hΓ.bind hv) hvs

/-- Variables that may occur and must not be bound may occur. -/
theorem Below.bindAll_seeAll {Γ Δ : Scope} (h : Γ.Below Δ) (vs : List Variable) :
    (Γ.bindAll vs).Below (Δ.seeAll vs) := by
  induction vs generalizing Γ Δ with
  | nil => exact h
  | cons v vs ih => exact ih (h.bind_see v)

end Scope

namespace Term

mutual

/-- Whether a term fits a scope; its binders have been minted. -/
def Fits (Γ : Scope) (s : Store) : Term → Prop
  | var v => v ∈ Γ.visible
  | native c => c.isPure = true
  | foreign _ => False
  | named _ d => Γ.names ∧ Fits Γ s d
  | lam v b => v ∉ Γ.taken ∧ s.Minted v ∧ Fits (Γ.bind v) s b
  | app _ h as => as ≠ [] ∧ Fits Γ s h ∧ FitsAll Γ s as

/-- Whether the terms of a list fit a scope. -/
def FitsAll (Γ : Scope) (s : Store) : List Term → Prop
  | [] => True
  | a :: as => Fits Γ s a ∧ FitsAll Γ s as

end

variable {Γ Δ : Scope} {s s' : Store} {t : Term} {ts us : List Term} {v : Variable}

/-- A list fits a scope if all its terms do. -/
theorem fitsAll_iff : FitsAll Γ s ts ↔ ∀ t ∈ ts, t.Fits Γ s := by
  induction ts with
  | nil => simp [FitsAll]
  | cons t ts ih => rw [FitsAll, ih, List.forall_mem_cons]

/-- Lists fit a scope part by part. -/
theorem fitsAll_append : FitsAll Γ s (ts ++ us) ↔ FitsAll Γ s ts ∧ FitsAll Γ s us := by
  rw [fitsAll_iff, fitsAll_iff, fitsAll_iff, List.forall_mem_append]

mutual

/-- A term that fits a scope fits every scope above it, now and later. -/
theorem Fits.weaken {s s' : Store} (hs : s ≤ s') : ∀ {t : Term} {Γ Δ : Scope}, Γ.Below Δ →
    t.Fits Γ s → t.Fits Δ s'
  | var v, _, _, h, ht => h.visible v ht
  | native _, _, _, _, ht => ht
  | foreign _, _, _, _, ht => ht.elim
  | named _ _, _, _, h, ht => ⟨h.names ht.1, Fits.weaken hs h ht.2⟩
  | lam v _, _, _, h, ht =>
    ⟨fun hv => ht.1 (h.taken v hv), ht.2.1.mono hs, Fits.weaken hs (h.bind v) ht.2.2⟩
  | app _ _ _, _, _, h, ht =>
    ⟨ht.1, Fits.weaken hs h ht.2.1, FitsAll.weaken hs h ht.2.2⟩

/-- Terms that fit a scope fit every scope above it, now and later. -/
theorem FitsAll.weaken {s s' : Store} (hs : s ≤ s') : ∀ {ts : List Term} {Γ Δ : Scope},
    Γ.Below Δ → FitsAll Γ s ts → FitsAll Δ s' ts
  | [], _, _, _, _ => trivial
  | _ :: _, _, _, h, hts => ⟨Fits.weaken hs h hts.1, FitsAll.weaken hs h hts.2⟩

end

/-- A term that fits a scope still does later. -/
theorem Fits.later (ht : t.Fits Γ s) (hs : s ≤ s') : t.Fits Γ s' :=
  ht.weaken hs (.refl Γ)

/-- Terms that fit a scope still do later. -/
theorem FitsAll.later (hts : FitsAll Γ s ts) (hs : s ≤ s') : FitsAll Γ s' ts :=
  hts.weaken hs (.refl Γ)

/-- A term that fits a scope fits every scope above it. -/
theorem Fits.mono (ht : t.Fits Γ s) (h : Γ.Below Δ) : t.Fits Δ s :=
  ht.weaken s.le_refl h

mutual

/-- What occurs in a term that fits a scope is visible. -/
theorem Fits.visible {s : Store} {v : Variable} : ∀ {t : Term} {Γ : Scope}, t.Fits Γ s →
    t.occurs v = true → v ∈ Γ.visible
  | var w, _, ht, h => by
    rw [occurs, decide_eq_true_iff] at h
    exact h ▸ ht
  | native _, _, _, h => by
    rw [occurs] at h
    cases h
  | foreign _, _, ht, _ => ht.elim
  | named _ d, _, ht, h => by
    rw [occurs] at h
    exact Fits.visible ht.2 h
  | lam w b, Γ, ht, h => by
    rw [occurs, Bool.and_eq_true, decide_eq_true_iff] at h
    exact (Fits.visible ht.2.2 h.2).resolve_left (Ne.symm h.1)
  | app _ hd as, _, ht, h => by
    rw [occurs, Bool.or_eq_true] at h
    rcases h with h | h
    · exact Fits.visible ht.2.1 h
    · exact FitsAll.visible ht.2.2 h

/-- What occurs in one of some terms that fit a scope is visible. -/
theorem FitsAll.visible {s : Store} {v : Variable} : ∀ {ts : List Term} {Γ : Scope},
    FitsAll Γ s ts → occursAny v ts = true → v ∈ Γ.visible
  | [], _, _, h => by
    rw [occursAny] at h
    cases h
  | _ :: _, _, hts, h => by
    rw [occursAny, Bool.or_eq_true] at h
    rcases h with h | h
    · exact Fits.visible hts.1 h
    · exact FitsAll.visible hts.2 h

end

mutual

/-- A term of a scope holds no user combinator, so none with a hook. -/
theorem Fits.hookless {s : Store} : ∀ {t : Term} {Γ : Scope}, t.Fits Γ s → t.hookless = true
  | var _, _, _ => rfl
  | native c, _, ht => by cases c <;> first | rfl | cases ht
  | foreign _, _, _ => rfl
  | named _ d, _, ht => Fits.hookless (t := d) ht.2
  | lam _ b, _, ht => Fits.hookless (t := b) ht.2.2
  | app _ _ _, _, ht => by
    rw [Term.hookless, Fits.hookless ht.2.1, FitsAll.hookless ht.2.2, Bool.and_self]

/-- Terms of a scope hold no user combinator, so none with a hook. -/
theorem FitsAll.hookless {s : Store} : ∀ {ts : List Term} {Γ : Scope}, FitsAll Γ s ts →
    hooklessAll ts = true
  | [], _, _ => rfl
  | _ :: _, _, hts => by
    rw [hooklessAll, Fits.hookless hts.1, FitsAll.hookless hts.2, Bool.and_self]

end

mutual

/-- Only the variables that occur need to be visible. -/
theorem Fits.restrict {s : Store} : ∀ {t : Term} {Γ : Scope} {F : Set Variable}, t.Fits Γ s →
    (∀ v, t.occurs v = true → v ∈ F) → t.Fits { Γ with visible := F } s
  | var v, _, _, _, h => h v (by simp [occurs])
  | native _, _, _, ht, _ => ht
  | foreign _, _, _, ht, _ => ht.elim
  | named _ d, _, _, ht, h => ⟨ht.1, Fits.restrict ht.2 fun v hv => h v (by rwa [occurs])⟩
  | lam w b, Γ, F, ht, h => by
    refine ⟨ht.1, ht.2.1, Fits.restrict ht.2.2 ?_⟩
    intro v hv
    by_cases hvw : v = w
    · exact Or.inl hvw
    · exact Or.inr (h v (by simp [occurs, hv, Ne.symm hvw]))
  | app _ hd as, _, _, ht, h =>
    ⟨ht.1, Fits.restrict ht.2.1 fun v hv => h v (by simp [occurs, hv]),
      FitsAll.restrict ht.2.2 fun v hv => h v (by simp [occurs, hv])⟩

/-- Only the variables that occur in one of the terms need to be visible. -/
theorem FitsAll.restrict {s : Store} : ∀ {ts : List Term} {Γ : Scope} {F : Set Variable},
    FitsAll Γ s ts → (∀ v, occursAny v ts = true → v ∈ F) → FitsAll { Γ with visible := F } s ts
  | [], _, _, _, _ => trivial
  | _ :: _, _, _, hts, h =>
    ⟨Fits.restrict hts.1 fun v hv => h v (by simp [occursAny, hv]),
      FitsAll.restrict hts.2 fun v hv => h v (by simp [occursAny, hv])⟩

end

mutual

/-- Variables that have not been minted are not bound. -/
theorem Fits.take {s : Store} {T : Set Variable} (hT : ∀ v ∈ T, ¬ s.Minted v) :
    ∀ {t : Term} {Γ : Scope}, t.Fits Γ s → t.Fits { Γ with taken := T ∪ Γ.taken } s
  | var _, _, ht => ht
  | native _, _, ht => ht
  | foreign _, _, ht => ht.elim
  | named _ _, _, ht => ⟨ht.1, Fits.take hT ht.2⟩
  | lam w b, Γ, ht => by
    refine ⟨?_, ht.2.1, ?_⟩
    · rintro (hw | hw)
      · exact hT w hw ht.2.1
      · exact ht.1 hw
    · have := Fits.take hT ht.2.2
      refine this.mono ⟨fun _ h => h, ?_, id⟩
      rintro x (rfl | hx | hx)
      · exact Or.inr (Or.inl rfl)
      · exact Or.inl hx
      · exact Or.inr (Or.inr hx)
  | app _ _ _, _, ht => ⟨ht.1, Fits.take hT ht.2.1, FitsAll.take hT ht.2.2⟩

/-- Variables that have not been minted are bound in none of the terms. -/
theorem FitsAll.take {s : Store} {T : Set Variable} (hT : ∀ v ∈ T, ¬ s.Minted v) :
    ∀ {ts : List Term} {Γ : Scope}, FitsAll Γ s ts →
      FitsAll { Γ with taken := T ∪ Γ.taken } s ts
  | [], _, _ => trivial
  | _ :: _, _, hts => ⟨Fits.take hT hts.1, FitsAll.take hT hts.2⟩

end

/-- A term fits the scope below a lambda of a new variable. -/
theorem Fits.bind_fresh (ht : t.Fits Γ s) (hv : ¬ s.Minted v) : t.Fits (Γ.bind v) s := by
  have single : ∀ w ∈ ({v} : Set Variable), ¬ s.Minted w := by
    rintro _ rfl
    exact hv
  exact (ht.take single).mono ⟨fun _ h => Set.mem_insert_of_mem v h, fun _ h => h, id⟩

/-- A body fits the scope above its lambda if the variable of the lambda does not occur in it. -/
theorem Fits.unbind (ht : t.Fits (Γ.bind v) s) (hv : ¬ t.occurs v = true) : t.Fits Γ s := by
  have fits : t.Fits { Γ.bind v with visible := Γ.visible } s := by
    refine ht.restrict fun w hw => (ht.visible hw).resolve_left ?_
    rintro rfl
    exact hv hw
  exact fits.mono ⟨fun _ h => h, fun w hw => Set.mem_insert_of_mem v hw, id⟩

/-- A term that fits the scope of some free variables fits the scope of those that occur. -/
theorem Fits.ofFree_occurs {F : Set Variable} (ht : t.Fits (.ofFree F) s) :
    t.Fits (.ofFree { v | t.occurs v = true }) s := by
  refine (ht.restrict fun v hv => hv).mono ⟨fun _ h => h, ?_, id⟩
  intro v hv
  exact ht.visible hv

/-- A term that fits a scope is no literal. -/
theorem Fits.literal?_eq_none (ht : t.Fits Γ s) : t.literal? = none := by
  cases t with
  | foreign x => exact ht.elim
  | _ => rfl

/-- There is no literal among terms that fit a scope. -/
theorem FitsAll.firstLiteral_eq_none (hts : FitsAll Γ s ts) : firstLiteral ts = none := by
  rw [firstLiteral, List.findSome?_eq_none_iff]
  intro t ht
  exact (fitsAll_iff.mp hts t ht).literal?_eq_none

end Term

end Combinatory
