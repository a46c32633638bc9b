import Combinatory.Proofs.Idempotence
import Combinatory.Proofs.Renumbering.Canonical
import Combinatory.Proofs.Settled

/-!
# Computations that are made again

A caller who makes a computation again later makes it over a store that has given out more
identities, and that remembers more. Neither matters to a term that was built before: there is a
base store over which the computation has the results that it has over either store, up to the
identities given out since (`Workspace.Reachable.exists_kept`). These are the identities that a
skeleton forgets.
-/

namespace Combinatory

open Relation (ReflTransGen)

variable {ρ : Renumbering} {R R' : Rules} {b s : Store} {q : Twins} {t u : Term}

/-! ### From a base store to a later one and back -/

/-- What one computation gives over a base store belongs to what another one gives over a later
store, and neither gives anything where the other gives nothing. -/
structure Engine.Repeats {α β : Type} (x : Engine α) (b : Store) (y : Engine β) (s : Store)
    (P : α → β → Prop) : Prop where
  exists_base : ∀ a s', y s = .ok a s' → ∃ a₀ s₀, x b = .ok a₀ s₀ ∧ P a₀ a
  exists_later : ∀ a₀ s₀, x b = .ok a₀ s₀ → ∃ a s', y s = .ok a s' ∧ P a₀ a

/-- A renumbered computation that does not look at the table repeats another one. -/
theorem Renumbered.repeats {α β : Type} {x : Engine α} {y : Engine β} {P : α → β → Prop}
    {Q : β → Twins → Prop} (hx : Renumbered ρ x y P) (hm : ρ.Matches b q.right)
    (hy : Alike y y q Q) : Engine.Repeats x b y q.left P where
  exists_base a s' h := by
    obtain ⟨q', -, -, hright, -⟩ := hy.exists_both_of_ok h
    obtain ⟨a₀, s₀, h₀, hp, -⟩ := hx.exists_of_ok_renumbered hm hright
    exact ⟨a₀, s₀, h₀, hp⟩
  exists_later a₀ s₀ h₀ := by
    obtain ⟨a, s', hright, hp, -⟩ := hx.exists_of_ok hm h₀
    cases hy with
    | ok a' q' hl hr _ _ =>
      rw [hright] at hr
      cases hr
      exact ⟨a, q'.left, hl, hp⟩
    | error e q' _ hr _ =>
      rw [hright] at hr
      cases hr

/-- A term that was built from identities that a base store has given out and a later store has not
changed. The later store is on the left, whatever it remembers. -/
structure Term.Kept (t : Term) (b : Store) (ρ : Renumbering) (q : Twins) : Prop where
  matched : ρ.Matches b q.right
  recorded : t.Recorded (fun c => c.isPure = true) q.heap
  made : t.MadeOf .pure
  wellFormed : t.WellFormed
  scope : (Scope.ofFree { v | t.occurs v = true }).Sealed b
  fits : t.Fits (.ofFree { v | t.occurs v = true }) b
  same : t.renumber ρ = t
  visible : ∀ v, t.occurs v = true → ρ.onVariable v = v

namespace Term.Kept

/-- A run is repeated. -/
theorem repeats_run (h : t.Kept b ρ q) (R R' : Rules) (budget : Amount) (strict : Bool) :
    Engine.Repeats (t.run R budget [] strict) b (t.run R' budget [] strict) q.left
      fun out₀ out => out = out₀.renumber ρ := by
  have renumbered : Renumbered ρ (t.run R budget [] strict)
      ((t.renumber ρ).run R' budget [] strict) _ :=
    Term.renumbered_run h.made budget strict
  rw [h.same] at renumbered
  exact (renumbered.imp fun _ _ h => h.2).repeats h.matched
    (Term.records_run (.of_pure R' q) budget strict h.recorded .nil)

/-- A search is repeated. -/
theorem repeats_search (h : t.Kept b ρ q) (R R' : Rules) (budget : Budget) :
    Engine.Repeats (t.search R budget) b (t.search R' budget) q.left
      fun r₀ r => r = (r₀.1.map (·.renumber ρ), r₀.2) := by
  have renumbered : Renumbered ρ (t.search R budget) ((t.renumber ρ).search R' budget) _ :=
    Term.renumbered_search h.made budget
  rw [h.same] at renumbered
  exact renumbered.repeats h.matched (Term.records_search (.of_pure R' q) budget h.recorded)

/-- Names keep their definitions. -/
private theorem defines (h : t.Kept b ρ q) :
    t.WellFormed ∧ t.Defines fun _ d => d.renumber ρ = d :=
  ⟨h.wellFormed, Term.defines_of_renumber_eq_self h.same⟩

/-- What is computed from the term over the base store has the same skeleton when it is
renumbered. -/
private theorem sameSkeleton (h : t.Kept b ρ q) (hu : u.Defines fun _ d => d.renumber ρ = d)
    (fits : u.Fits (.ofFree { v | t.occurs v = true }) s) : (u.renumber ρ).SameSkeleton u :=
  Term.skeleton_renumber hu fun v hv => congrArg Place.free (h.visible v (fits.visible hv))

/-- What a run ends with has the same skeleton when it is renumbered. -/
theorem sameSkeleton_run (h : t.Kept b ρ q) {budget : Amount} {strict : Bool} {out : Run}
    (hrun : t.run R budget [] strict b = .ok out s) :
    (out.term.renumber ρ).SameSkeleton out.term := by
  have kept := ((Term.defines_invariant R _).run budget h.defines
    (List.forall_mem_nil _) strict).of_ok hrun
  have means :=
    (Term.ensures_run (η := True) R budget strict h.scope (.self h.fits) .nil _ _ hrun).2
  exact h.sameSkeleton kept.2 means.fits

/-- So has the form that a search finds. -/
theorem sameSkeleton_search (h : t.Kept b ρ q) {budget : Budget} {form : CanonicalForm} {k : Nat}
    (found : t.search R budget b = .ok (some form, k) s) :
    (form.term.renumber ρ).SameSkeleton form.term := by
  have kept := ((Term.defines_invariant R _).search budget h.defines).of_ok found form rfl
  have means :=
    (Term.ensures_search (η := True) R trivial budget h.scope (.self h.fits) _ _ found).2 form rfl
  exact h.sameSkeleton kept.2 means.fits

end Term.Kept

/-- What a final run ends with is regular. -/
theorem SearchedIn.regular_of_run {Γ : Scope} (h : SearchedIn Γ q [] t) {budget : Amount}
    {strict : Bool} {out : Run} (hrun : t.run R budget [] strict q.left = .ok out s)
    (final : out.final = true) : out.term.Regular True ∅ s := by
  obtain ⟨n, hn, hfrom, -⟩ := Term.run_nil_ok_iff.mp hrun
  obtain ⟨p, -, rfl, ran, -⟩ := h.run (Term.run_nil_ok_iff.mpr ⟨n, hn, hfrom, nofun⟩) final
  exact ran.regular.anti (Set.empty_subset _)

/-- The form that a search finds is regular. -/
theorem SearchedIn.regular_of_search {Γ : Scope} (h : SearchedIn Γ q [] t) {budget : Budget}
    {form : CanonicalForm} {k : Nat} (found : t.search R budget q.left = .ok (some form, k) s) :
    form.term.Regular True ∅ s := by
  obtain ⟨m, -, found⟩ := Term.search_ok_iff.mp found
  obtain ⟨p, us, u, -, ended, -, -, -, hclose⟩ := h.exists_of_searchFrom _ found
  obtain ⟨form', s', hform, -, -, -, sketched⟩ :=
    Term.gives_sketches (R := R) ended.probes ended.regular
  rw [hclose] at hform
  cases hform
  exact sketched.regular

namespace Workspace

variable {p : Twins} {w w₁ w₂ : Workspace} {ts : List Term}

/-- A term that has identities below some number only is kept in every later workspace that has
given out as many. -/
private theorem Mirrors.exists_kept {p₁ : Twins} (hp₁ : Mirrors p₁ w₁) (hs : w.store ≤ w₁.store)
    (hts : Builds w.store ts) (ht : t ∈ ts) (hmem : t ∈ w₁.terms) {H : Heap} (known : t.Known H)
    {n : Nat} (hH : ∀ m, n ≤ m → H m = none) (hn : n ≤ w₁.store.nextNode) :
    ∃ ρ q, q.left = w₁.store ∧ t.Kept ⟨w.store.nextVariable, n, ∅⟩ ρ q := by
  obtain ⟨q, hleft, hright, hknown⟩ := hp₁.exists_untabled
  have fits := hts.fits ht
  have minted := (hts.sealed ht).minted
  refine ⟨⟨w.store.nextVariable, (w₁.store.nextVariable - w.store.nextVariable).toNat, n,
    w₁.store.nextNode - n⟩, q, hleft, ?_, ?_, hts.madeOf ht, ?_, ?_, ?_, ?_, fun v hv => ?_⟩
  · have given : w.store.nextVariable ≤ w₁.store.nextVariable := hs
    rw [hright]
    refine ⟨Int.le_refl _, ?_, Nat.le_refl _, ?_, fun _ => ?_⟩ <;> dsimp only [Store.untabled]
    · omega
    · omega
    · rw [Std.HashSet.contains_empty, Std.HashSet.contains_empty]
  · exact (Term.recordedAll_iff.mp hknown t hmem).isPure_of_fits fits
  · exact (hts.assembled.regular ht).wellFormed fits
  · exact (hts.sealed ht).later (Int.le_refl _)
  · exact fits.later (Int.le_refl _)
  · exact Term.renumber_eq_self (Int.le_refl _) hH fits minted known
  · exact Renumbering.onVariable_of_lt (minted.visible v hv)

/-- A term that was built is kept in any two later workspaces, over a common base. -/
theorem Reachable.exists_kept (h : w.Reachable) (hts : Builds w.store ts) (ht : t ∈ ts)
    (hmem : t ∈ w.terms) (h₁ : ReflTransGen Move w w₁) (h₂ : ReflTransGen Move w w₂) :
    ∃ b, (∃ ρ q, q.left = w₁.store ∧ t.Kept b ρ q) ∧ ∃ ρ q, q.left = w₂.store ∧ t.Kept b ρ q := by
  obtain ⟨p, hp⟩ := h.exists_twins
  obtain ⟨p₁, later₁, hp₁⟩ := hp.moves h₁
  obtain ⟨p₂, later₂, hp₂⟩ := hp.moves h₂
  have known : t.Known p.heap := Term.recordedAll_iff.mp hp.known t hmem
  -- an application that was made before has a number that both have given out
  have bounded (m : Nat) (hm : min w₁.store.nextNode w₂.store.nextNode ≤ m) : p.heap m = none := by
    rw [← hp₁.left, ← hp₂.left] at hm
    have above : p₁.left.nextNode ≤ m ∨ p₂.left.nextNode ≤ m := by omega
    cases hx : p.heap m with
    | none => rfl
    | some x =>
      rcases above with hm | hm
      · exact (later₁.heap m x hx).symm.trans (p₁.bounded m hm)
      · exact (later₂.heap m x hx).symm.trans (p₂.bounded m hm)
  exact ⟨⟨w.store.nextVariable, min w₁.store.nextNode w₂.store.nextNode, ∅⟩,
    hp₁.exists_kept (hp.later h₁).store hts ht ((hp.later h₁).terms t hmem) known bounded
      (Nat.min_le_left _ _),
    hp₂.exists_kept (hp.later h₂).store hts ht ((hp.later h₂).terms t hmem) known bounded
      (Nat.min_le_right _ _)⟩

/-- A term that was built can be searched from in any later workspace. -/
theorem Reachable.exists_searchedIn (h : w.Reachable) (hts : Builds w.store ts) (ht : t ∈ ts)
    (hmem : t ∈ w.terms) (h₁ : ReflTransGen Move w w₁) :
    ∃ p, p.left = w₁.store ∧ SearchedIn (.ofFree { v | t.occurs v = true }) p [] t := by
  obtain ⟨p, hp⟩ := h.exists_twins
  obtain ⟨p₁, -, hp₁⟩ := hp.moves h₁
  have later := hp.later h₁
  exact ⟨p₁, hp₁.left, hp₁.searchedIn (hts.elapse later.store) ht (later.terms t hmem)⟩

end Workspace

end Combinatory
