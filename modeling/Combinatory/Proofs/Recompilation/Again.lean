import Combinatory.Proofs.Answers
import Combinatory.Proofs.Leftovers

/-!
# What compiling a compiled term gives

A compiled term is put together by applying leaves. When it is compiled once more each leaf stays at
no cost, or is a combinator that is replaced by something that it does not head (`Term.Leaf`). So
the result is equal to the term exactly when nothing was spent (`Term.again_compile`).
-/

namespace Combinatory

namespace Term

variable {R : Rules} {limits : Budget} {budget : Nat} {t u g h : Term} {as bs ts us : List Term}
  {m n : Nat} {x : Native}

/-! ### Equality -/

/-- A combinator that compilation does not leave alone is not equal to what comes down to a variable
or one that it does. -/
theorem told_native (hx : x.isBase = false) (hu : u.Bare) (hroot : u.Rooted) :
    Told false (native x) u := by
  have hne : native x ≠ u := by
    rintro rfl
    rw [Rooted, hx] at hroot
    cases hroot
  intro under
  unfold equalBy
  rw [if_neg hne, if_neg hne.symm]
  cases u with
  | foreign _ => exact hroot.elim
  | lam _ _ | named _ _ => exact hu.elim
  | app n h as => exact ⟨rfl, rfl⟩
  | var v => exact ⟨rfl, rfl⟩
  | native y =>
    have differ : x ≠ y := fun h => hne (congrArg native h)
    refine ⟨congrArg pure ?_, congrArg pure ?_⟩
    · simpa [unwrapped] using differ
    · simpa [unwrapped] using differ.symm

/-! ### Symbols -/

/-- The symbols of an application are those of its parts. -/
private theorem symbols_app : (app n h as).symbols = h.symbols ++ symbolsOfAll [] as [] := by
  rw [symbols, symbolsUnder, symbolsUnder_eq_append]
  rfl

private theorem mem_symbolsOfAll_iff {y : Symbol} :
    y ∈ symbolsOfAll [] ts [] ↔ ∃ t ∈ ts, y ∈ t.symbols := by
  induction ts with
  | nil => simp [symbolsOfAll]
  | cons t ts ih =>
    rw [symbolsOfAll, symbolsUnder_eq_append, List.mem_append, ih, List.exists_mem_cons_iff]
    rfl

theorem mem_symbols_app_iff {y : Symbol} :
    y ∈ (app n h as).symbols ↔ y ∈ h.symbols ∨ ∃ a ∈ as, y ∈ a.symbols := by
  rw [symbols_app, List.mem_append, mem_symbolsOfAll_iff]

theorem mem_symbols_of_head {y : Symbol} (hy : y ∈ h.symbols) : y ∈ (app n h as).symbols :=
  mem_symbols_app_iff.mpr (.inl hy)

theorem mem_symbols_of_arg {y : Symbol} {a : Term} (ha : a ∈ as) (hy : y ∈ a.symbols) :
    y ∈ (app n h as).symbols :=
  mem_symbols_app_iff.mpr (.inr ⟨a, ha, hy⟩)

/-! ### Applications that are made again -/

theorem StandsAs.isApp_eq_false (hst : StandsAs h as) : h.isApp = false := by
  cases h with
  | app n g bs => exact absurd rfl (hst.flat n g bs)
  | _ => rfl

/-- Where no hook of the user replaces anything, a head that can stand before some arguments is put
there as it is. -/
private theorem extend_of_standsAs (hR : R.hookless = true) (hst : StandsAs h as)
    (hmark : h ≠ native .lambdaMark) : extend R h as = Engine.node h as := by
  obtain ⟨a, as, rfl⟩ := List.exists_cons_of_ne_nil hst.nonempty
  cases h with
  | app n g bs => exact absurd rfl (hst.flat n g bs)
  | native c =>
    have kept : c.replacement R a = pure none := by
      refine replacement_of_unmet hR (fun h => hmark (by rw [h])) fun hsucc n ha => ?_
      exact hst.unmet (by rw [hsucc]) n (by rw [ha, List.head?_cons])
    simp [extend, kept]
  | _ => simp [extend]

/-- What a term is compiled to is the term, or comes down to a variable, `S`, `K` or `I`, if it is
no application. -/
def LeafKept (t u : Term) : Prop := u.isApp = false → u = t ∨ u.Rooted

/-- No literal comes up among arguments that are compiled again. -/
private theorem firstLiteral_again (has : List.Forall₂ LeafKept as bs)
    (hlit : firstLiteral as = none) : firstLiteral bs = none := by
  rw [firstLiteral_eq_none_iff] at hlit ⊢
  induction has with
  | nil => exact List.forall_mem_nil _
  | @cons a b as bs hab _ ih =>
    obtain ⟨ha, hlit⟩ := List.forall_mem_cons.mp hlit
    refine List.forall_mem_cons.mpr ⟨?_, ih hlit⟩
    cases b with
    | foreign y =>
      rcases hab rfl with rfl | hroot
      · exact ha
      · exact hroot.elim
    | _ => rfl

/-- Nor does a numeral that the successor would meet. -/
private theorem StandsAs.again (hst : StandsAs h as) (has : List.Forall₂ LeafKept as bs) :
    StandsAs h bs := by
  cases has with
  | nil => exact absurd rfl hst.nonempty
  | @cons a b as bs hab has =>
    refine ⟨List.cons_ne_nil b bs, hst.flat, fun hsucc n hb => ?_⟩
    obtain rfl : b = numeral n := by simpa using hb
    rcases hab rfl with rfl | hroot
    · exact hst.unmet hsucc n rfl
    · cases hroot

/-! ### Compiling once more -/

/-- What compiling a term once more gives. -/
structure Again (t : Term) (c : Compiled Term budget) : Prop where
  /-- It is equal to the term exactly when it cost nothing. -/
  told : Told (c.left = budget) t c.value
  leaf : LeafKept t c.value

/-- What compiling some terms once more gives. -/
structure AgainAll (ts : List Term) (c : Compiled (List Term) budget) : Prop where
  told : ToldAll (c.left = budget) ts c.value
  leaves : List.Forall₂ LeafKept ts c.value

/-- A leaf either stays at no cost, or is a combinator that is replaced by something that it does
not head. -/
inductive Leaf (t : Term) (c : Compiled Term budget) : Prop
  | kept (same : c.value = t) (free : c.left = budget)
  | replaced (x : Native) (eq : t = native x) (hx : x.isBase = false) (less : c.left < budget)
      (bare : c.value.Bare) (rooted : c.value.Rooted)

theorem leaf_compile (hR : R.hookless = true) (ht : t.Bare) (happ : t.isApp = false) :
    GivesOnly (compile R limits [] budget t) fun c => 0 < c.left → Leaf t c := by
  cases t with
  | app n h as => cases happ
  | lam _ _ | named _ _ => exact ht.elim
  | var _ | foreign _ =>
    unfold compile
    exact .pure fun _ => .kept rfl rfl
  | native c =>
    unfold compile
    split
    · exact .pure fun _ => .kept rfl rfl
    · next hbase =>
      split
      · exact .pure fun hpos => absurd hpos (Nat.lt_irrefl 0)
      · next left =>
        apply (rooted_canonical limits c).bind
        intro o ho
        cases o with
        | none => exact .pure fun _ => .kept rfl rfl
        | some form =>
          apply (clean_compile hR limits [c] left form).bind
          refine fun d hd => .pure fun hpos => ?_
          obtain ⟨hbare, hroot⟩ := hd hpos
          exact .replaced c rfl (by simpa using hbase) (Nat.lt_succ_of_le d.left_le) hbare
            (hroot (ho form rfl))

private theorem Leaf.again {c : Compiled Term budget} (hc : Leaf t c) : Again t c := by
  cases hc with
  | kept same free =>
    refine ⟨?_, fun _ => .inl same⟩
    rw [same, decide_eq_true free]
    exact told_self t
  | replaced x eq hx less bare rooted =>
    refine ⟨?_, fun _ => .inr rooted⟩
    rw [eq, decide_eq_false (Nat.ne_of_lt less)]
    exact told_native hx bare rooted

/-- Nothing was spent exactly if nothing was before and nothing after. -/
private theorem decide_left_eq {left mid : Nat} (hmid : mid ≤ budget) (hleft : left ≤ mid) :
    decide (left = budget) = (decide (mid = budget) && decide (left = mid)) := by
  rw [← Bool.decide_and]
  exact decide_eq_decide.mpr (by omega)

/-- A head that stays is put before the new arguments as it was before the old ones. -/
theorem apply_again (hR : R.hookless = true) (hst : StandsAs h as)
    (hmark : h ≠ native .lambdaMark) (hlit : firstLiteral as = none)
    (has : List.Forall₂ LeafKept as bs) : apply R h bs = Engine.node h bs := by
  rw [apply_eq_extend R h (firstLiteral_again has hlit)]
  exact extend_of_standsAs hR (hst.again has) hmark

mutual

/-- What is compiled once more is the same if that costs nothing, and else is not. -/
theorem again_compile (hR : R.hookless = true) : ∀ {t : Term} {budget : Nat}, t.Bare →
    GivesOnly (compile R limits [] budget t) fun c => 0 < c.left → Again t c
  | var v, _, ht => (leaf_compile hR ht rfl).imp fun _ hc hpos => (hc hpos).again
  | native c, _, ht => (leaf_compile hR ht rfl).imp fun _ hc hpos => (hc hpos).again
  | foreign y, _, ht => (leaf_compile hR ht rfl).imp fun _ hc hpos => (hc hpos).again
  | lam _ _, _, ht | named _ _, _, ht => ht.elim
  | app n h as, budget, ⟨hst, hmark, hlit, hh, has⟩ => by
    unfold compile
    split
    · next hzero =>
      exact .pure fun hpos => absurd hzero (Nat.pos_iff_ne_zero.mp hpos)
    · apply (leaf_compile hR hh hst.isApp_eq_false).bind
      intro h' hhead
      apply ((again_compileAll hR has).and (clean_compileAll hR limits [] h'.left as)).bind
      rintro as' ⟨hargs, hbare⟩
      rcases Nat.eq_zero_or_pos as'.left with hzero | hpos
      · refine (givesOnly_anything _).bind fun u _ => .pure fun h => ?_
        exact absurd hzero (Nat.pos_iff_ne_zero.mp h)
      have hargs := hargs hpos
      have hsplit := decide_left_eq h'.left_le as'.left_le
      cases hhead (Nat.lt_of_lt_of_le hpos as'.left_le) with
      | kept same free =>
        rw [same, apply_again hR hst hmark hlit hargs.leaves]
        apply (Engine.ends_node h as'.value).bind
        rintro _ ⟨m, rfl⟩
        refine .pure fun _ => ⟨?_, nofun⟩
        rw [hsplit, decide_eq_true free]
        exact told_app (told_self h) hargs.told hargs.leaves.length_eq
      | replaced x eq hx less bare rooted =>
        have hne : as'.value ≠ [] := fun hnil =>
          hst.nonempty (List.forall₂_nil_right_iff.mp (hnil ▸ hargs.leaves))
        have spent : as'.left ≠ budget := by
          have := as'.left_le
          omega
        apply ((clean_apply hR bare (hbare hpos)).and (isApp_apply_of_rooted rooted hne)).bind
        rintro u ⟨⟨hu, hroot⟩, happ⟩
        obtain ⟨m, g, bs, rfl⟩ := eq_app_of_isApp happ
        refine .pure fun _ => ⟨?_, nofun⟩
        rw [decide_eq_false spent, eq]
        exact told_app_of_head (told_native hx hu.2.2.2.1 (hroot rooted)) as bs

theorem again_compileAll (hR : R.hookless = true) : ∀ {ts : List Term} {budget : Nat}, AllBare ts →
    GivesOnly (compileAll R limits [] budget ts) fun c => 0 < c.left → AgainAll ts c
  | [], budget, _ => by
    unfold compileAll
    refine .pure fun _ => ⟨?_, .nil⟩
    have free : (Compiled.free ([] : List Term) : Compiled _ budget).left = budget := rfl
    rw [decide_eq_true free]
    exact toldAll_self []
  | t :: ts, budget, ⟨ht, hts⟩ => by
    unfold compileAll
    apply (again_compile hR ht).bind
    intro t' ht'
    apply (again_compileAll hR hts).bind
    intro ts' hts'
    refine .pure fun hpos => ?_
    have hfirst := ht' (Nat.lt_of_lt_of_le hpos ts'.left_le)
    have hrest := hts' hpos
    refine ⟨?_, .cons hfirst.leaf hrest.leaves⟩
    rw [decide_left_eq t'.left_le ts'.left_le]
    exact toldAll_cons hfirst.told hrest.told

end

end Term

end Combinatory
