import Combinatory.Proofs.Elimination
import Combinatory.Proofs.Expansion

/-!
# What terms are compiled to

A term determines a combination of `S`, `K` and `I` (`Term.ski`) and a number of eliminations
(`Term.effort`), both by recursion on the term: a combinator is given by its template, a lambda by
the abstraction of what its body is compiled to, and a name by its definition. With one elimination
more allowed than that, the compiler ends with this combination (`yields_compile`).
-/

namespace Combinatory

open Engine (Yields)
open Combination (bracketAll eliminationsAll)

/-! ### Combinators -/

namespace Native

/-- Distinct variables, one for each argument. -/
def places (c : Native) : List Variable :=
  (List.range c.arity).map fun i : Nat => ⟨"", i⟩

/-- The combination that a combinator is compiled to. -/
def ski (c : Native) : Combination :=
  match c.isBase, c.template with
  | false, some r => bracketAll c.places (r.fill (c.places.map .var))
  | _, _ => .native c

/-- The eliminations that it takes to compile a combinator; to replace it by its canonical form
counts as one. -/
def effort (c : Native) : Nat :=
  match c.isBase, c.template with
  | false, some r => eliminationsAll c.places (r.fill (c.places.map .var)) + 1
  | _, _ => 0

theorem length_places (c : Native) : c.places.length = c.arity := by
  rw [places, List.length_map, List.length_range]

theorem nodup_places (c : Native) : c.places.Nodup := by
  refine List.nodup_range.map fun i j hij => ?_
  injection hij with _ hident
  exact Int.ofNat.inj hident

variable {c : Native} {r : Template}

theorem ski_of_isBase (h : c.isBase = true) : c.ski = .native c := by
  rw [ski, h]

theorem effort_of_isBase (h : c.isBase = true) : c.effort = 0 := by
  rw [effort, h]

theorem ski_of_template (h : c.isBase = false) (hr : c.template = some r) :
    c.ski = bracketAll c.places (r.fill (c.places.map .var)) := by
  rw [ski, h, hr]

theorem effort_of_template (h : c.isBase = false) (hr : c.template = some r) :
    c.effort = eliminationsAll c.places (r.fill (c.places.map .var)) + 1 := by
  rw [effort, h, hr]

/-- Combinators that stand for a lambda term have a template. -/
theorem exists_template_of_isPure (h : c.isPure = true) : ∃ r, c.template = some r := by
  cases c with
  | toNumeral | lambdaMark | user u => cases h
  | _ => exact ⟨_, rfl⟩

/-- The combinators that compilation leaves alone stand for lambda terms. -/
theorem isPure_of_isBase (h : c.isBase = true) : c.isPure = true := by
  cases c <;> first | rfl | cases h

/-- A combinator is compiled to `S`, `K` and `I`. -/
theorem isBasic_ski (h : c.isPure = true) : Term.IsBasic c.ski := by
  cases hb : c.isBase with
  | true =>
    rw [ski_of_isBase hb]
    exact hb
  | false =>
    obtain ⟨r, hr⟩ := exists_template_of_isPure h
    rw [ski_of_template hb hr]
    exact Combination.uses_bracketAll rfl rfl rfl (Template.uses_fill_vars hr c.length_places)

example : B.ski = .app (.app (.native .S) (.app (.native .K) (.native .S))) (.native .K) := by
  decide

/-- No variable occurs in what a combinator is compiled to. -/
theorem not_mentions_ski (v : Variable) (c : Native) : ¬ c.ski.Mentions v := by
  rw [ski]
  split
  · intro hv
    obtain ⟨hv, hfree⟩ := Combination.mentions_bracketAll.mp hv
    exact hfree (Template.mem_of_mentions_fill hv)
  · exact id

end Native

namespace Term

variable {R : Rules} {limits : Budget} {Γ : Scope} {s : Store}

/-- What fills the template of a combinator is compiled to what the combinator is. -/
private theorem Fills.compilesTo {c : Native} {r : Template} {u : Term}
    (h : Fills r c.arity s u) (hr : c.template = some r) :
    CompilesTo u (bracketAll c.places (r.fill (c.places.map .var)))
      (eliminationsAll c.places (r.fill (c.places.map .var))) := by
  have given : u.applied (Combination.var ∘ id) (c.places.map .var) =
      r.fill (c.places.map .var) :=
    h.applied _ _ (by rw [List.length_map, Native.length_places])
  have closed : ∀ v ∈ c.places, ∀ x, u.occurs x = true → id x ≠ v := fun _ _ _ hx =>
    (h.fits.visible hx).elim
  have basic : IsBasic (u.applied (Combination.var ∘ id) (c.places.map .var)) := by
    rw [given]
    exact Template.uses_fill_vars hr c.length_places
  obtain ⟨d, hd, -, hcomp⟩ :=
    h.tower.exists_compiled id c.length_places c.nodup_places closed basic
  rw [Combination.rename_eq_self (π := id) fun _ _ => rfl, given] at hd
  rw [given] at hcomp
  exact hd ▸ hcomp

/-- A combinator is compiled by its canonical form. -/
theorem yields_compile_native (h : limits.Ample) {c : Native} (hc : c.isPure = true)
    {budget : Nat} (enough : c.effort ≤ budget) (s : Store) :
    Yields (compile R limits [] budget (native c)) s fun o _ =>
      Leaves c.ski (budget - c.effort) o := by
  cases hb : c.isBase with
  | true =>
    rw [Native.ski_of_isBase hb, Native.effort_of_isBase hb]
    have base : (native c).IsCombination := by
      cases c <;> first | rfl | cases hb
    exact yields_compile_basic (native c) budget base hb s
  | false =>
    obtain ⟨r, hr⟩ := Native.exists_template_of_isPure hc
    rw [Native.effort_of_template hb hr] at enough ⊢
    rw [Native.ski_of_template hb hr]
    have expanded : (c.isBase || List.contains [] c) = false := by rw [hb]; rfl
    unfold compile
    rw [expanded, if_neg Bool.false_ne_true]
    cases budget with
    | zero => cases enough
    | succ left =>
      apply (yields_canonical h hc hr s).bind
      rintro _ s₁ - ⟨u, rfl, hu⟩
      have empty : (Scope.ofFree ∅).Minted s₁ := ⟨fun _ hv => hv.elim, fun _ hv => hv.elim⟩
      apply ((hu.compilesTo hr).yields R limits [c] empty hu.fits
        (Nat.le_of_succ_le_succ enough)).bind
      rintro o s₂ - ⟨hform, hleft⟩
      exact .pure ⟨hform, hleft.trans (Nat.succ_sub_succ _ _).symm⟩

/-! ### Terms -/

mutual

/-- The combination that a term is compiled to. What stands for no lambda term is read as the
identity. -/
def ski : Term → Combination
  | var v => .var v
  | native c => c.ski
  | foreign _ => .native .I
  | named _ d => ski d
  | lam v b => (ski b).bracket v
  | app _ h as => (ski h).apps (skiAll as)

/-- The combinations that the terms of a list are compiled to. -/
def skiAll : List Term → List Combination
  | [] => []
  | a :: as => ski a :: skiAll as

end

mutual

/-- The eliminations that it takes to compile a term. -/
def effort : Term → Nat
  | var _ => 0
  | native c => c.effort
  | foreign _ => 0
  | named _ d => effort d
  | lam v b => effort b + (ski b).eliminations v
  | app _ h as => effort h + effortAll as

/-- The eliminations that it takes to compile the terms of a list. -/
def effortAll : List Term → Nat
  | [] => 0
  | a :: as => effort a + effortAll as

end

mutual

/-- No variable is brought in. -/
theorem occurs_of_mentions_ski {v : Variable} : ∀ {t : Term}, t.ski.Mentions v →
    t.occurs v = true
  | var w, h => by simpa [occurs] using Eq.symm h
  | native c, h => (c.not_mentions_ski v h).elim
  | foreign _, h => h.elim
  | named _ d, h => occurs_of_mentions_ski (t := d) h
  | lam w b, h => by
    obtain ⟨h, hvw⟩ := Combination.mentions_bracket.mp h
    simp [occurs, occurs_of_mentions_ski h, Ne.symm hvw]
  | app _ hd as, h => by
    rw [occurs, Bool.or_eq_true]
    exact (Combination.mentions_apps.mp h).imp occurs_of_mentions_ski occursAny_of_mentions_skiAll

theorem occursAny_of_mentions_skiAll {v : Variable} : ∀ {ts : List Term},
    (∃ c ∈ skiAll ts, c.Mentions v) → occursAny v ts = true
  | [], h => by
    obtain ⟨_, hmem, -⟩ := h
    cases hmem
  | t :: ts, h => by
    rw [skiAll, List.exists_mem_cons_iff] at h
    rw [occursAny, Bool.or_eq_true]
    exact h.imp occurs_of_mentions_ski occursAny_of_mentions_skiAll

end

mutual

/-- A term that stands for a lambda term is compiled to `S`, `K`, `I` and variables. -/
theorem Fits.isBasic_ski : ∀ {t : Term} {Γ : Scope}, t.Fits Γ s → IsBasic t.ski
  | var _, _, _ => trivial
  | native _, _, h => Native.isBasic_ski h
  | foreign _, _, h => h.elim
  | named _ d, _, h => Fits.isBasic_ski (t := d) h.2
  | lam _ _, _, h => Combination.uses_bracket rfl rfl rfl (Fits.isBasic_ski h.2.2)
  | app _ _ _, _, h =>
    Combination.uses_apps.mpr ⟨Fits.isBasic_ski h.2.1, FitsAll.isBasic_skiAll h.2.2⟩

theorem FitsAll.isBasic_skiAll : ∀ {ts : List Term} {Γ : Scope}, FitsAll Γ s ts →
    ∀ c ∈ skiAll ts, IsBasic c
  | [], _, _ => List.forall_mem_nil _
  | _ :: _, _, h =>
    List.forall_mem_cons.mpr ⟨Fits.isBasic_ski h.1, FitsAll.isBasic_skiAll h.2⟩

end

mutual

/-- With one elimination more allowed than it takes, a term is compiled to its combination. -/
theorem yields_compile (hl : limits.Ample) : ∀ (t : Term) {budget : Nat} {Γ : Scope} {s : Store},
    Γ.Minted s → t.Fits Γ s → t.effort < budget →
      Yields (compile R limits [] budget t) s fun o _ => Leaves t.ski (budget - t.effort) o
  | var v, budget, _, s, _, _, _ => yields_compile_basic (var v) budget trivial trivial s
  | native c, _, _, s, _, ht, enough => yields_compile_native hl ht (Nat.le_of_lt enough) s
  | foreign _, _, _, _, _, ht, _ => ht.elim
  | named info d, budget, _, _, hΓ, ht, enough => by
    unfold compile
    exact yields_compile hl d hΓ ht.2 enough
  | lam v b, budget, Γ, s, hΓ, ⟨_, hv, hb⟩, enough => by
    rw [effort] at enough ⊢
    have inner : (Γ.bind v).Minted s := hΓ.bind hv
    have minted : ∀ w, b.ski.Mentions w → s.Minted w := fun w hw =>
      inner.visible w (hb.visible (occurs_of_mentions_ski hw))
    rw [compile_lam, ← Nat.sub_sub]
    exact yields_eliminate (yields_compile hl b inner hb (by omega)) hb.isBasic_ski minted
      (by omega)
  | app n h as, budget, Γ, s, hΓ, ⟨_, hh, has⟩, enough => by
    rw [effort] at enough ⊢
    unfold compile
    rw [if_neg (by omega)]
    apply (yields_compile hl h hΓ hh (by omega)).bind
    rintro h' s₁ hs₁ ⟨hform, hleft⟩
    apply (yields_compileAll hl as (hΓ.later hs₁) (has.later hs₁) (by omega)).bind
    rintro as' s₂ - ⟨hforms, hleft'⟩
    apply (hform.apply R hforms s₂).bind
    intro u s₃ _ hu
    refine .pure ⟨hu, ?_⟩
    dsimp only
    omega

theorem yields_compileAll (hl : limits.Ample) : ∀ (ts : List Term) {budget : Nat} {Γ : Scope}
    {s : Store}, Γ.Minted s → FitsAll Γ s ts → effortAll ts < budget →
      Yields (compileAll R limits [] budget ts) s fun o _ =>
        List.Forall₂ Forms o.value (skiAll ts) ∧ o.left = budget - effortAll ts
  | [], budget, _, _, _, _, _ => by
    unfold compileAll
    exact .pure ⟨.nil, rfl⟩
  | t :: ts, budget, Γ, s, hΓ, ⟨ht, hts⟩, enough => by
    rw [effortAll] at enough ⊢
    unfold compileAll
    apply (yields_compile hl t hΓ ht (by omega)).bind
    rintro t' s₁ hs₁ ⟨hform, hleft⟩
    apply (yields_compileAll hl ts (hΓ.later hs₁) (hts.later hs₁) (by omega)).bind
    rintro ts' s₂ - ⟨hforms, hleft'⟩
    refine .pure ⟨.cons hform hforms, ?_⟩
    dsimp only
    omega

end

/-- Where compilation does not look at its budget, any is enough. -/
private theorem yields_compile_unbudgeted (hl : limits.Ample) : ∀ (t : Term) (budget : Nat),
    t.Fits Γ s → t.isBudgeted = false →
      Yields (compile R limits [] budget t) s fun o _ => o.value.Forms t.ski
  | var v, budget, _, _ =>
    (yields_compile_basic (var v) budget trivial trivial s).imp fun _ _ _ h => h.forms
  | native c, budget, ht, hb => by
    rw [isBudgeted, Bool.not_eq_false'] at hb
    have free : c.effort ≤ budget := by
      rw [Native.effort_of_isBase hb]
      exact Nat.zero_le budget
    exact (yields_compile_native hl ht free s).imp fun _ _ _ h => h.forms
  | foreign _, _, ht, _ => ht.elim
  | named info d, budget, ht, hb => by
    unfold compile
    exact yields_compile_unbudgeted hl d budget ht.2 hb

/-- A budget that is larger than the effort gives the combination of the term. -/
theorem yields_bracketForm (hl : limits.Ample) (hΓ : Γ.Minted s) {t : Term} (ht : t.Fits Γ s)
    {maxSteps : Amount} {b : Int} (hb : maxSteps.goal? = some b) (enough : t.effort < b) :
    Yields (bracketForm R limits maxSteps t) s fun u _ => u.Forms t.ski := by
  unfold bracketForm compileWithin
  cases hbudget : t.isBudgeted with
  | true =>
    have allowed : Engine.goal maxSteps = pure b := by
      rw [Engine.goal, hb]
    simp only [if_true, allowed, pure_bind, bind_assoc]
    apply (yields_compile hl t hΓ ht (by omega)).bind
    rintro o s₁ - ⟨hform, -⟩
    exact .pure hform
  | false =>
    simp only [Bool.false_eq_true, if_false, pure_bind, bind_assoc]
    apply (yields_compile_unbudgeted hl t _ ht hbudget).bind
    intro o s₁ _ hform
    exact .pure hform

end Term

end Combinatory
