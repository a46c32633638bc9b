import Combinatory.Proofs.Definitions
import Combinatory.Proofs.Renumbering.Reduction
import Combinatory.Proofs.Settled.Twins
import Combinatory.Proofs.Skeleton
import Combinatory.Proofs.Tower.Probes
import Mathlib.Data.List.Count

/-!
# Renumbered searches

The search for the canonical form of a renumbered term feeds it as many probes and finds the same
form, renumbered. Of a term that was there before the moment from which identities are shifted,
nothing is shifted, nor in the definitions of what is computed from it; so all that a renumbering
changes in a result are identities that a skeleton forgets (`skeleton_renumber`).
-/

namespace Combinatory

variable {ρ : Renumbering} {R R' : Rules} {t : Term}

/-- The symbol with its identity renumbered, if it is a variable. -/
def Symbol.renumber (ρ : Renumbering) : Symbol → Symbol
  | var v => var (ρ.onVariable v)
  | y => y

theorem Symbol.renumber_injective : Function.Injective (Symbol.renumber ρ) := by
  intro x y h
  cases x <;> cases y <;> simp_all [Symbol.renumber]

namespace Term

/-! ### Closing a result over probes -/

private theorem contains_map_onVariable (vs : List Variable) (v : Variable) :
    (vs.map ρ.onVariable).contains (ρ.onVariable v) = vs.contains v := by
  rw [Bool.eq_iff_iff, List.contains_iff_mem, List.contains_iff_mem, List.mem_map]
  simp

mutual

private theorem symbolsUnder_renumber : ∀ (t : Term) (bound : List Variable) (rest : List Symbol),
    symbolsUnder (bound.map ρ.onVariable) (t.renumber ρ) (rest.map (Symbol.renumber ρ)) =
      (symbolsUnder bound t rest).map (Symbol.renumber ρ)
  | var v, bound, rest => by
    rw [renumber, symbolsUnder, symbolsUnder, contains_map_onVariable]
    split <;> rfl
  | native _, _, _ => rfl
  | foreign _, _, _ => rfl
  | named info d, bound, rest => by
    rw [renumber, symbolsUnder, symbolsUnder, symbolsUnder_renumber d]
    split <;> rfl
  | lam v b, bound, rest => by
    rw [renumber, symbolsUnder, symbolsUnder, ← List.map_cons, symbolsUnder_renumber b]
    rfl
  | app _ h as, bound, rest => by
    rw [renumber, symbolsUnder, symbolsUnder, symbolsOfAll_renumber as, symbolsUnder_renumber h]

private theorem symbolsOfAll_renumber : ∀ (ts : List Term) (bound : List Variable)
    (rest : List Symbol),
    symbolsOfAll (bound.map ρ.onVariable) (renumberAll ρ ts) (rest.map (Symbol.renumber ρ)) =
      (symbolsOfAll bound ts rest).map (Symbol.renumber ρ)
  | [], _, _ => rfl
  | t :: ts, bound, rest => by
    rw [renumberAll, symbolsOfAll, symbolsOfAll, symbolsOfAll_renumber ts, symbolsUnder_renumber t]

end

/-- The symbols of a renumbered term. -/
theorem symbols_renumber (t : Term) :
    (t.renumber ρ).symbols = t.symbols.map (Symbol.renumber ρ) :=
  symbolsUnder_renumber t [] []

end Term

/-- What is known of a term, renumbered. -/
def CanonicalForm.renumber (ρ : Renumbering) (form : CanonicalForm) : CanonicalForm :=
  { form with term := form.term.renumber ρ }

namespace Term

/-- Closing a renumbered result over renumbered probes makes the same form, renumbered. -/
theorem renumbered_closeProbes (ht : t.MadeOf .pure) (vs : List Variable) :
    Renumbered ρ (closeProbes R vs t) (closeProbes R' (vs.map ρ.onVariable) (t.renumber ρ))
      fun form form' => form' = form.renumber ρ := by
  unfold closeProbes
  rw [ht.counted_eq, ht.renumber.counted_eq, pure_bind, pure_bind, symbols_renumber]
  have counts : (vs.map ρ.onVariable).map
      (fun v => ((t.symbols.map (Symbol.renumber ρ)).count (.var v) : Int)) =
        vs.map fun v => (t.symbols.count (.var v) : Int) := by
    rw [List.map_map]
    refine List.map_congr_left fun v _ => congrArg Int.ofNat ?_
    exact List.count_map_of_injective _ _ Symbol.renumber_injective (.var v)
  have proper : ((t.symbols.map (Symbol.renumber ρ)).all fun
        | .var v => (vs.map ρ.onVariable).contains v
        | _ => false) =
      t.symbols.all fun
        | .var v => vs.contains v
        | _ => false := by
    rw [List.all_map]
    congr 1
    funext y
    cases y with
    | var v => exact contains_map_onVariable vs v
    | _ => rfl
  dsimp only
  rw [counts, List.length_map]
  apply (renumbers_abstractAll ht vs).bind
  rintro u _ ⟨-, rfl⟩
  refine .pure ((CanonicalForm.mk.injEq ..).mpr ?_)
  exact ⟨rfl, rfl, proper, congrArg (· && _ && _) proper, rfl, rfl⟩

/-! ### The search -/

theorem renumbered_searchFrom (maxSteps : Amount) (left : Nat) {t : Term} (ht : t.MadeOf .pure)
    (vs : List Variable) (spent : Nat) :
    Renumbered ρ (searchFrom R maxSteps t vs spent left)
      (searchFrom R' maxSteps (t.renumber ρ) (vs.map ρ.onVariable) spent left)
      fun r r' => r' = (r.1.map (·.renumber ρ), r.2) := by
  induction left generalizing t vs spent with
  | zero => exact .pure rfl
  | succ left ih =>
    unfold searchFrom
    apply (renumbered_run ht maxSteps false).bind
    rintro out _ ⟨made, rfl⟩
    simp only [Run.term_renumber, Run.steps_renumber, Run.final_renumber, awaitsArgs_renumber,
      List.length_map]
    split
    · exact .pure rfl
    · split
      · apply (renumbered_closeProbes made vs).bind
        rintro form _ rfl
        exact .pure rfl
      · apply (Engine.renumbered_freshVariable _).bind
        rintro v _ rfl
        have probe : MadeOfAll .pure [var v] := ⟨trivial, trivial⟩
        apply (renumbers_apply made probe).bind
        rintro u _ ⟨hu, rfl⟩
        have probes : (vs ++ [v]).map ρ.onVariable = vs.map ρ.onVariable ++ [ρ.onVariable v] := by
          rw [List.map_append, List.map_singleton]
        rw [← probes]
        exact ih hu _ _

theorem renumbered_search (ht : t.MadeOf .pure) (budget : Budget) :
    Renumbered ρ (search R budget t) (search R' budget (t.renumber ρ))
      fun r r' => r' = (r.1.map (·.renumber ρ), r.2) := by
  unfold search
  apply (Engine.renumbered_whole budget.args).bind
  rintro args _ rfl
  exact renumbered_searchFrom budget.steps _ ht [] 0

/-! ### What is not shifted -/

variable {s : Store} {H : Heap}

mutual

/-- A term of identities that were given out before is not changed. -/
theorem renumber_eq_self {ok : Native → Prop} (hs : s.nextVariable ≤ ρ.firstVariable)
    (hH : ∀ n, ρ.firstNode ≤ n → H n = none) : ∀ {t : Term} {Γ : Scope}, t.Fits Γ s →
      Γ.Minted s → t.Recorded ok H → t.renumber ρ = t
  | var v, Γ, hfits, hΓ, _ => by
    rw [renumber, Renumbering.onVariable_of_lt (Int.lt_of_lt_of_le (hΓ.visible v hfits) hs)]
  | native _, _, _, _, _ => rfl
  | foreign _, _, hfits, _, _ => hfits.elim
  | named info d, Γ, hfits, hΓ, hrec => by
    rw [renumber, renumber_eq_self hs hH (t := d) hfits.2 hΓ hrec]
  | lam v b, Γ, ⟨_, hm, hb⟩, hΓ, hrec => by
    rw [renumber, renumber_eq_self hs hH (t := b) hb (hΓ.bind hm) hrec,
      Renumbering.onVariable_of_lt (Int.lt_of_lt_of_le hm hs)]
  | app n h as, Γ, hfits, hΓ, ⟨hn, hh, has⟩ => by
    have below : n < ρ.firstNode := by
      by_contra hle
      rw [hH n (Nat.not_lt.mp hle)] at hn
      cases hn
    rw [renumber, renumber_eq_self hs hH hfits.2.1 hΓ hh,
      renumberAll_eq_self hs hH hfits.2.2 hΓ has, Renumbering.onNode_of_lt below]

theorem renumberAll_eq_self {ok : Native → Prop} (hs : s.nextVariable ≤ ρ.firstVariable)
    (hH : ∀ n, ρ.firstNode ≤ n → H n = none) : ∀ {ts : List Term} {Γ : Scope}, FitsAll Γ s ts →
      Γ.Minted s → RecordedAll ok H ts → renumberAll ρ ts = ts
  | [], _, _, _, _ => rfl
  | t :: ts, Γ, hfits, hΓ, hrec => by
    rw [renumberAll, renumber_eq_self hs hH hfits.1 hΓ hrec.1,
      renumberAll_eq_self hs hH hfits.2 hΓ hrec.2]

end

mutual

/-- Where a term is not changed, its definitions are not. -/
theorem defines_of_renumber_eq_self : ∀ {t : Term}, t.renumber ρ = t →
    t.Defines fun _ d => d.renumber ρ = d
  | var _, _ => trivial
  | native _, _ => trivial
  | foreign _, _ => trivial
  | named info d, h => by
    injection h with _ h
    exact ⟨h, defines_of_renumber_eq_self h⟩
  | lam v b, h => by
    injection h with _ h
    exact defines_of_renumber_eq_self (t := b) h
  | app n g as, h => by
    injection h with _ hg has
    exact ⟨defines_of_renumber_eq_self hg, definesAll_of_renumberAll_eq_self has⟩

theorem definesAll_of_renumberAll_eq_self : ∀ {ts : List Term}, renumberAll ρ ts = ts →
    DefinesAll (fun _ d => d.renumber ρ = d) ts
  | [], _ => trivial
  | t :: ts, h => by
    injection h with ht hts
    exact ⟨defines_of_renumber_eq_self ht, definesAll_of_renumberAll_eq_self hts⟩

end

mutual

/-- The skeleton of a term forgets what a renumbering changes, if this places the free variables
where they stood and leaves definitions alone. -/
theorem skeleton_renumber : ∀ {t : Term} {e e' : Places}, (t.Defines fun _ d => d.renumber ρ = d) →
    (∀ v, t.occurs v = true → e' (ρ.onVariable v) = e v) →
      (t.renumber ρ).skeleton e' = t.skeleton e
  | var v, _, _, _, h => congrArg Skeleton.var (h v (by simp [occurs]))
  | native _, _, _, _, _ => rfl
  | foreign _, _, _, _, _ => rfl
  | named info d, _, _, hd, h => by
    rw [renumber, skeleton, skeleton, skeleton_renumber hd.2 fun v hv => h v (by rwa [occurs]),
      hd.1]
  | lam v b, e, e', hb, h => by
    rw [renumber, skeleton, skeleton, skeleton_renumber (t := b) hb]
    intro w hw
    by_cases hwv : w = v
    · simp [hwv]
    · rw [Places.bind_of_ne hwv, Places.bind_of_ne (by simpa using hwv), h w]
      simp [occurs, hw, Ne.symm hwv]
  | app _ g as, _, _, hd, h => by
    rw [renumber, skeleton, skeleton,
      skeleton_renumber hd.1 fun v hv => h v (by simp [occurs, hv]),
      skeletons_renumber hd.2 fun v hv => h v (by simp [occurs, hv])]

theorem skeletons_renumber : ∀ {ts : List Term} {e e' : Places},
    DefinesAll (fun _ d => d.renumber ρ = d) ts →
      (∀ v, occursAny v ts = true → e' (ρ.onVariable v) = e v) →
        skeletons e' (renumberAll ρ ts) = skeletons e ts
  | [], _, _, _, _ => rfl
  | _ :: _, _, _, hts, h => by
    rw [renumberAll, skeletons, skeletons,
      skeleton_renumber hts.1 fun v hv => h v (by simp [occursAny, hv]),
      skeletons_renumber hts.2 fun v hv => h v (by simp [occursAny, hv])]

end

end Term

end Combinatory
