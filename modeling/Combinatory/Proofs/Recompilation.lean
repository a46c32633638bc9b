import Combinatory.Proofs.Combination.Runs
import Combinatory.Proofs.Recompilation.Again
import Combinatory.Proofs.Tower.Probes
import Combinatory.Proofs.Workspace

/-!
# Compiling a compiled term

A compiled term may hold combinators other than `S`, `K` and `I`: those without a canonical form,
and those that were met inside their own expansion. When it is compiled again the first stay, but
nothing is being expanded any more, so the others are now replaced by what they are compiled to.
That is never headed by the combinator again (`Term.Rooted`). So the result is equal to the compiled
term exactly when the second compilation makes no elimination, which is when every other combinator
is refused a canonical form as the compiler comes to it (`Term.BracketsTo.recompile`).
-/

namespace Combinatory

open Relation (ReflTransGen)

namespace Native

/-- Whether a search for the canonical form of a combinator ends without one. -/
def Refused (R : Rules) (limits : Budget) (c : Native) (s : Store) : Prop :=
  ∃ s', (Term.native c).canonical R limits s = .ok none s'

end Native

namespace Term

/-- What compiling a term at no cost does to the store: a search for the canonical form of one of
its combinators, none of `S`, `K` and `I`, ends without one, or an application is made. -/
inductive Idling (R : Rules) (limits : Budget) (t : Term) : Store → Store → Prop where
  | refuse {x : Native} {s s' : Store} (hx : .native x ∈ t.symbols) (hbase : x.isBase = false)
      (h : (native x).canonical R limits s = .ok none s') : Idling R limits t s s'
  | make {s s' : Store} {n : Nat} (h : Engine.freshNode s = .ok n s') : Idling R limits t s s'

/-- Whether compiling a term at no cost may come from one store to another. -/
def Idles (R : Rules) (limits : Budget) (t : Term) : Store → Store → Prop :=
  ReflTransGen (Idling R limits t)

/-- Whether a combinator is refused a canonical form between two stores that compiling a term at no
cost comes by. -/
def Refuses (R : Rules) (limits : Budget) (t : Term) (x : Native) (s s' : Store) : Prop :=
  ∃ s₁ s₂, t.Idles R limits s s₁ ∧ (native x).canonical R limits s₁ = .ok none s₂ ∧
    t.Idles R limits s₂ s'

mutual

/-- Whether every combinator of a term but `S`, `K` and `I` is refused a canonical form when the
compiler comes to it, which takes the store from `s` to `s'`. -/
def Stays (R : Rules) (limits : Budget) : Term → Store → Store → Prop
  | native x, s, s' =>
    if x.isBase then s' = s else (native x).canonical R limits s = .ok none s'
  | app _ h as, s, s' =>
    ∃ s₁ s₂ n, Stays R limits h s s₁ ∧ StayAll R limits as s₁ s₂ ∧
      Engine.freshNode s₂ = .ok n s'
  | lam _ _, _, _ => False
  | named _ _, _, _ => False
  | _, s, s' => s' = s

/-- The same for the terms of a list, from left to right. -/
def StayAll (R : Rules) (limits : Budget) : List Term → Store → Store → Prop
  | [], s, s' => s' = s
  | t :: ts, s, s' => ∃ s₁, Stays R limits t s s₁ ∧ StayAll R limits ts s₁ s'

end

variable {R : Rules} {limits : Budget} {budget : Nat} {s s' : Store} {t u g h : Term}
  {as bs ts us : List Term} {m n : Nat} {x : Native}

/-! ### Combinators that stay -/

/-- An application is compiled part by part. -/
private theorem compile_app_ok {s₁ s₂ s₃ : Store} {h' : Compiled Term budget}
    {as' : Compiled (List Term) h'.left} (hb : budget ≠ 0)
    (hh : compile R limits [] budget h s = .ok h' s₁)
    (has : compileAll R limits [] h'.left as s₁ = .ok as' s₂)
    (hu : apply R h'.value as'.value s₂ = .ok u s₃) :
    compile R limits [] budget (app n h as) s =
      .ok ⟨u, as'.left, Nat.le_trans as'.left_le h'.left_le⟩ s₃ := by
  unfold compile
  rw [if_neg hb, Engine.bind_of_ok hh, Engine.bind_of_ok has, Engine.bind_of_ok hu]
  rfl

private theorem compileAll_nil_ok : compileAll R limits [] budget [] s = .ok (.free []) s := by
  unfold compileAll
  rfl

private theorem compileAll_cons_ok {s₁ s₂ : Store} {t' : Compiled Term budget}
    {ts' : Compiled (List Term) t'.left} (ht : compile R limits [] budget t s = .ok t' s₁)
    (hts : compileAll R limits [] t'.left ts s₁ = .ok ts' s₂) :
    compileAll R limits [] budget (t :: ts) s =
      .ok ⟨t'.value :: ts'.value, ts'.left, Nat.le_trans ts'.left_le t'.left_le⟩ s₂ := by
  unfold compileAll
  rw [Engine.bind_of_ok ht, Engine.bind_of_ok hts]
  rfl

private theorem compile_base_ok (hx : x.isBase = true) :
    compile R limits [] budget (native x) s = .ok (.free (native x)) s := by
  unfold compile
  rw [hx]
  rfl

/-- A combinator that is refused a canonical form stays at no cost. -/
private theorem compile_native_of_refused (hx : x.isBase = false) (hpos : 0 < budget)
    (h : (native x).canonical R limits s = .ok none s') :
    compile R limits [] budget (native x) s = .ok (.free (native x)) s' := by
  obtain ⟨left, rfl⟩ := Nat.exists_eq_add_one_of_ne_zero (Nat.ne_of_gt hpos)
  unfold compile
  simp only [hx, List.contains_nil, Bool.or_false, Bool.false_eq_true, if_false]
  rw [Engine.bind_of_ok h]
  rfl

mutual

/-- A term whose combinators stay is compiled once more at no cost, with every budget that allows
for something. -/
theorem exists_compile_of_stays (hR : R.hookless = true) : ∀ {t : Term} {s s' : Store}, t.Bare →
    t.Stays R limits s s' → ∀ {budget : Nat}, 0 < budget →
      ∃ c : Compiled Term budget, compile R limits [] budget t s = .ok c s' ∧ c.left = budget
  | var v, s, _, _, rfl, budget, _ => ⟨.free (var v), by unfold compile; rfl, rfl⟩
  | foreign y, s, _, _, rfl, budget, _ => ⟨.free (foreign y), by unfold compile; rfl, rfl⟩
  | lam _ _, _, _, ht, _, _, _ | named _ _, _, _, ht, _, _, _ => ht.elim
  | native x, s, s', _, hstay, budget, hpos => by
    refine ⟨.free (native x), ?_, rfl⟩
    rw [Stays] at hstay
    cases hx : x.isBase with
    | true =>
      obtain rfl : s' = s := by simpa [hx] using hstay
      exact compile_base_ok hx
    | false =>
      rw [hx, if_neg Bool.false_ne_true] at hstay
      exact compile_native_of_refused hx hpos hstay
  | app n h as, s, s', ⟨hst, hmark, hlit, hh, has⟩, hstay, budget, hpos => by
    rw [Stays] at hstay
    obtain ⟨s₁, s₂, m, hhead, hargs, hnode⟩ := hstay
    obtain ⟨h', hh', hleft⟩ := exists_compile_of_stays hR hh hhead hpos
    have hpos' : 0 < h'.left := hleft.symm ▸ hpos
    have same : h'.value = h := by
      cases (leaf_compile hR hh hst.isApp_eq_false).of_ok hh' hpos' with
      | kept same => exact same
      | replaced x eq hx less => exact absurd hleft (Nat.ne_of_lt less)
    obtain ⟨as', has', hleft'⟩ := exists_compileAll_of_stays hR has hargs hpos'
    have again := ((again_compileAll hR has).of_ok has' (hleft'.symm ▸ hpos')).leaves
    have made : apply R h'.value as'.value s₂ = .ok (app m h as'.value) s' := by
      rw [same, apply_again hR hst hmark hlit again]
      cases hnode
      rfl
    exact ⟨_, compile_app_ok (Nat.ne_of_gt hpos) hh' has' made, hleft'.trans hleft⟩

theorem exists_compileAll_of_stays (hR : R.hookless = true) : ∀ {ts : List Term} {s s' : Store},
    AllBare ts → StayAll R limits ts s s' → ∀ {budget : Nat}, 0 < budget →
      ∃ c : Compiled (List Term) budget,
        compileAll R limits [] budget ts s = .ok c s' ∧ c.left = budget
  | [], s, _, _, rfl, budget, _ => ⟨.free [], compileAll_nil_ok, rfl⟩
  | t :: ts, s, s', ⟨ht, hts⟩, ⟨s₁, hfirst, hrest⟩, budget, hpos => by
    obtain ⟨c, hc, hleft⟩ := exists_compile_of_stays hR ht hfirst hpos
    obtain ⟨cs, hcs, hleft'⟩ := exists_compileAll_of_stays hR hts hrest (hleft.symm ▸ hpos)
    exact ⟨_, compileAll_cons_ok hc hcs, hleft'.trans hleft⟩

end

mutual

/-- Where compiling a term once more costs nothing, its combinators stay. -/
theorem stays_of_compile (hR : R.hookless = true) : ∀ {t : Term} {s s' : Store} {budget : Nat}
    {c : Compiled Term budget}, t.Bare → compile R limits [] budget t s = .ok c s' →
      0 < c.left → c.left = budget → t.Stays R limits s s'
  | var v, s, s', _, _, _, hc, _, _ => by
    unfold compile at hc
    cases hc
    rfl
  | foreign y, s, s', _, _, _, hc, _, _ => by
    unfold compile at hc
    cases hc
    rfl
  | lam _ _, _, _, _, _, ht, _, _, _ | named _ _, _, _, _, _, ht, _, _, _ => ht.elim
  | native x, s, s', budget, c, _, hc, hpos, hleft => by
    rw [Stays]
    cases hx : x.isBase with
    | true =>
      rw [compile_base_ok hx] at hc
      cases hc
      rfl
    | false =>
      obtain ⟨left, rfl⟩ := Nat.exists_eq_add_one_of_ne_zero (Nat.ne_of_gt (hleft ▸ hpos))
      unfold compile at hc
      simp only [hx, List.contains_nil, Bool.or_false, Bool.false_eq_true, if_false] at hc ⊢
      obtain ⟨o, s₁, ho, hc⟩ := Engine.bind_ok_iff.mp hc
      cases o with
      | none =>
        cases hc
        exact ho
      | some form =>
        -- an expansion is paid for
        obtain ⟨d, s₂, -, hc⟩ := Engine.bind_ok_iff.mp hc
        cases hc
        exact absurd hleft (Nat.ne_of_lt (Nat.lt_succ_of_le d.left_le))
  | app n h as, s, s', budget, c, ⟨hst, hmark, hlit, hh, has⟩, hc, hpos, hleft => by
    have hne : budget ≠ 0 := Nat.ne_of_gt (hleft ▸ hpos)
    unfold compile at hc
    rw [if_neg hne] at hc
    obtain ⟨h', s₁, hh', hc⟩ := Engine.bind_ok_iff.mp hc
    obtain ⟨as', s₂, has', hc⟩ := Engine.bind_ok_iff.mp hc
    obtain ⟨u, s₃, hu, hc⟩ := Engine.bind_ok_iff.mp hc
    cases hc
    dsimp only at hpos hleft
    have hle := h'.left_le
    have hle' := as'.left_le
    have hhead := stays_of_compile hR hh hh' (by omega) (by omega)
    have hargs := stayAll_of_compileAll hR has has' hpos (by omega)
    have same : h'.value = h := by
      cases (leaf_compile hR hh hst.isApp_eq_false).of_ok hh' (by omega) with
      | kept same => exact same
      | replaced x eq hx less => omega
    have again := ((again_compileAll hR has).of_ok has' hpos).leaves
    rw [same, apply_again hR hst hmark hlit again] at hu
    cases hu
    rw [Stays]
    exact ⟨s₁, s₂, s₂.nextNode, hhead, hargs, rfl⟩

theorem stayAll_of_compileAll (hR : R.hookless = true) : ∀ {ts : List Term} {s s' : Store}
    {budget : Nat} {c : Compiled (List Term) budget}, AllBare ts →
      compileAll R limits [] budget ts s = .ok c s' → 0 < c.left → c.left = budget →
        StayAll R limits ts s s'
  | [], s, s', _, _, _, hc, _, _ => by
    rw [compileAll_nil_ok] at hc
    cases hc
    rfl
  | t :: ts, s, s', budget, c, ⟨ht, hts⟩, hc, hpos, hleft => by
    unfold compileAll at hc
    obtain ⟨t', s₁, ht', hc⟩ := Engine.bind_ok_iff.mp hc
    obtain ⟨ts', s₂, hts', hc⟩ := Engine.bind_ok_iff.mp hc
    cases hc
    dsimp only at hpos hleft
    have hle := t'.left_le
    have hle' := ts'.left_le
    exact ⟨s₁, stays_of_compile hR ht ht' (by omega) (by omega),
      stayAll_of_compileAll hR hts hts' hpos (by omega)⟩

end

/-! ### Stores that a compilation comes by -/

section

variable {r : Term}

/-- A refusal is one between any two stores around it. -/
theorem Refuses.widen {s₀ s₁ : Store} (h : r.Refuses R limits x s s')
    (before : r.Idles R limits s₀ s) (after : r.Idles R limits s' s₁) :
    r.Refuses R limits x s₀ s₁ := by
  obtain ⟨s₂, s₃, h₂, h₃, h₄⟩ := h
  exact ⟨s₂, s₃, before.trans h₂, h₃, h₄.trans after⟩

mutual

/-- Where the combinators of a part of `r` stay, each of them has been refused a canonical form. -/
theorem Stays.idles : ∀ {t : Term} {s s' : Store}, t.Stays R limits s s' →
    (∀ x, .native x ∈ t.symbols → .native x ∈ r.symbols) →
      r.Idles R limits s s' ∧
        ∀ x, .native x ∈ t.symbols → x.isBase = true ∨ r.Refuses R limits x s s'
  | var _, s, _, rfl, _ | foreign _, s, _, rfl, _ =>
    ⟨.refl, fun x hx => by simp [symbols, symbolsUnder] at hx⟩
  | native y, s, s', hstay, hsub => by
    have own {x : Native} (hx : .native x ∈ (native y).symbols) : x = y := by
      simpa [symbols, symbolsUnder] using hx
    rw [Stays] at hstay
    cases hy : y.isBase with
    | true =>
      obtain rfl : s' = s := by simpa [hy] using hstay
      exact ⟨.refl, fun x hx => .inl (own hx ▸ hy)⟩
    | false =>
      rw [hy, if_neg Bool.false_ne_true] at hstay
      have mem : .native y ∈ r.symbols := hsub y (by simp [symbols, symbolsUnder])
      refine ⟨.single (.refuse mem hy hstay), fun x hx => .inr ?_⟩
      rw [own hx]
      exact ⟨s, s', .refl, hstay, .refl⟩
  | app n h as, s, s', hstay, hsub => by
    rw [Stays] at hstay
    obtain ⟨s₁, s₂, m, hhead, hargs, hnode⟩ := hstay
    obtain ⟨idle, refused⟩ := hhead.idles fun x hx => hsub x (mem_symbols_of_head hx)
    obtain ⟨idle', refused'⟩ := stayAll_idles hargs fun a ha x hx =>
      hsub x (mem_symbols_of_arg ha hx)
    have made : r.Idles R limits s₂ s' := .single (.make hnode)
    refine ⟨(idle.trans idle').trans made, fun x hx => ?_⟩
    rcases mem_symbols_app_iff.mp hx with hx | ⟨a, ha, hx⟩
    · exact (refused x hx).imp_right fun h => h.widen .refl (idle'.trans made)
    · exact (refused' a ha x hx).imp_right fun h => h.widen idle made

theorem stayAll_idles : ∀ {ts : List Term} {s s' : Store}, StayAll R limits ts s s' →
    (∀ t ∈ ts, ∀ x, .native x ∈ t.symbols → .native x ∈ r.symbols) →
      r.Idles R limits s s' ∧
        ∀ t ∈ ts, ∀ x, .native x ∈ t.symbols → x.isBase = true ∨ r.Refuses R limits x s s'
  | [], s, _, rfl, _ => ⟨.refl, List.forall_mem_nil _⟩
  | t :: ts, s, s', ⟨s₁, hfirst, hrest⟩, hsub => by
    obtain ⟨first, rest⟩ := List.forall_mem_cons.mp hsub
    obtain ⟨idle, refused⟩ := hfirst.idles first
    obtain ⟨idle', refused'⟩ := stayAll_idles hrest rest
    refine ⟨idle.trans idle', List.forall_mem_cons.mpr ⟨fun x hx => ?_, fun u hu x hx => ?_⟩⟩
    · exact (refused x hx).imp_right fun h => h.widen .refl idle'
    · exact (refused' u hu x hx).imp_right fun h => h.widen idle .refl

end

mutual

/-- If no combinator of a compiled term but `S`, `K` and `I` has a canonical form in any store that
compiling comes by, all of them stay. -/
theorem exists_stays : ∀ {t : Term} {s : Store}, t.Bare →
    (∀ x, .native x ∈ t.symbols → .native x ∈ r.symbols) →
    (∀ x, .native x ∈ t.symbols →
      x.isBase = true ∨ ∀ s₁, r.Idles R limits s s₁ → x.Refused R limits s₁) →
    ∃ s', t.Stays R limits s s'
  | var _, s, _, _, _ | foreign _, s, _, _, _ => ⟨s, rfl⟩
  | lam _ _, _, ht, _, _ | named _ _, _, ht, _, _ => ht.elim
  | native y, s, _, _, hstay => by
    simp only [Stays]
    rcases hstay y (by simp [symbols, symbolsUnder]) with hy | hy
    · exact ⟨s, by rw [if_pos hy]⟩
    · obtain ⟨s', hs'⟩ := hy s .refl
      split
      · exact ⟨s, rfl⟩
      · exact ⟨s', hs'⟩
  | app n h as, s, ⟨hst, hmark, hlit, hh, has⟩, hsub, hstay => by
    obtain ⟨s₁, hhead⟩ := exists_stays hh (fun x hx => hsub x (mem_symbols_of_head hx))
      fun x hx => hstay x (mem_symbols_of_head hx)
    obtain ⟨idle, -⟩ := hhead.idles fun x hx => hsub x (mem_symbols_of_head hx)
    obtain ⟨s₂, hargs⟩ := exists_stayAll has (fun a ha x hx => hsub x (mem_symbols_of_arg ha hx))
      fun a ha x hx => (hstay x (mem_symbols_of_arg ha hx)).imp_right
        fun refused s₃ hs₃ => refused s₃ (idle.trans hs₃)
    exact ⟨_, s₁, s₂, s₂.nextNode, hhead, hargs, rfl⟩

theorem exists_stayAll : ∀ {ts : List Term} {s : Store}, AllBare ts →
    (∀ t ∈ ts, ∀ x, .native x ∈ t.symbols → .native x ∈ r.symbols) →
    (∀ t ∈ ts, ∀ x, .native x ∈ t.symbols →
      x.isBase = true ∨ ∀ s₁, r.Idles R limits s s₁ → x.Refused R limits s₁) →
    ∃ s', StayAll R limits ts s s'
  | [], s, _, _, _ => ⟨s, rfl⟩
  | t :: ts, s, ⟨ht, hts⟩, hsub, hstay => by
    obtain ⟨first, rest⟩ := List.forall_mem_cons.mp hsub
    obtain ⟨stay, others⟩ := List.forall_mem_cons.mp hstay
    obtain ⟨s₁, hfirst⟩ := exists_stays ht first stay
    obtain ⟨idle, -⟩ := hfirst.idles first
    obtain ⟨s₂, hrest⟩ := exists_stayAll hts rest fun u hu x hx =>
      (others u hu x hx).imp_right fun refused s₃ hs₃ => refused s₃ (idle.trans hs₃)
    exact ⟨s₂, s₁, hfirst, hrest⟩

end

end

private theorem compile_named_ok {info : NameInfo} {t' : Compiled Term budget}
    (ht : compile R limits [] budget t s = .ok t' s') :
    compile R limits [] budget (named info t) s = .ok t' s' := by
  unfold compile
  exact ht

/-! ### Budgets -/

/-- Whether a term is compiled to `r` after `n` eliminations, with a budget that is not spent by
them. -/
def BracketsTo (R : Rules) (limits : Budget) (t : Term) (s : Store) (r : Term) (n : Nat)
    (s' : Store) : Prop :=
  ∃ (maxSteps : Amount) (m : Int), maxSteps.goal? = some m ∧ (n : Int) < m ∧
    t.compileWithin R limits maxSteps s = .ok (r, n) s'

/-- Where compilation does not look at its budget, what it gives is the same with every budget, and
costs nothing. -/
private theorem exists_compile_eq : ∀ {t : Term}, t.isBudgeted = false →
    ∃ u, ∀ budget, compile R limits [] budget t = pure (.free u)
  | var v, _ => ⟨var v, fun budget => by unfold compile; rfl⟩
  | foreign y, _ => ⟨foreign y, fun budget => by unfold compile; rfl⟩
  | native c, h => by
    have base : (c.isBase || List.contains [] c) = true := by
      rw [Bool.or_eq_true]
      exact .inl (by simpa [isBudgeted] using h)
    refine ⟨native c, fun budget => ?_⟩
    unfold compile
    rw [if_pos base]
  | named _ d, h => by
    obtain ⟨u, hu⟩ := exists_compile_eq (t := d) h
    refine ⟨u, fun budget => ?_⟩
    unfold compile
    exact hu budget

/-- The result comes from a compilation that leaves something of its budget. -/
private theorem BracketsTo.exists_compiled {r : Term} (hr : t.BracketsTo R limits s r n s') :
    ∃ (budget : Nat) (c : Compiled Term budget), compile R limits [] budget t s = .ok c s' ∧
      0 < c.left ∧ c.value = r ∧ (n = 0 ↔ c.left = budget) := by
  obtain ⟨maxSteps, m, hm, hlt, hcompile⟩ := hr
  have goal : Engine.goal maxSteps = pure m := by rw [Engine.goal, hm]
  unfold compileWithin at hcompile
  cases hb : t.isBudgeted with
  | true =>
    simp only [hb, if_true, goal, pure_bind] at hcompile
    obtain ⟨c, s₁, hc, hcompile⟩ := Engine.bind_ok_iff.mp hcompile
    cases hcompile
    have := c.left_le
    exact ⟨m.toNat, c, hc, by omega, rfl, by omega⟩
  | false =>
    obtain ⟨u, hu⟩ := @exists_compile_eq R limits t hb
    simp only [hb, Bool.false_eq_true, if_false, pure_bind, hu] at hcompile
    cases hcompile
    exact ⟨1, .free u, by rw [hu]; rfl, Nat.one_pos, rfl, by simp [Compiled.free]⟩

/-- A term whose combinators stay is compiled once more without an elimination by every budget that
allows for something. -/
private theorem exists_compileWithin (hR : R.hookless = true) (ht : t.Bare)
    (hstay : t.Stays R limits s s') {maxSteps : Amount} {m : Int} (hm : maxSteps.goal? = some m)
    (hlt : 0 < m) : ∃ u, t.compileWithin R limits maxSteps s = .ok (u, 0) s' := by
  have goal : Engine.goal maxSteps = pure m := by rw [Engine.goal, hm]
  have free {budget : Nat} {c : Compiled Term budget} (hleft : c.left = budget)
      (hc : compile R limits [] budget t s = .ok c s') : (do
        let out ← compile R limits [] budget t
        return (out.value, budget - out.left) : Engine (Term × Nat)) s = .ok (c.value, 0) s' := by
    rw [Engine.bind_of_ok hc, hleft, Nat.sub_self]
    rfl
  unfold compileWithin
  cases hb : t.isBudgeted with
  | true =>
    have hpos : 0 < m.toNat := by omega
    obtain ⟨c, hc, hleft⟩ := exists_compile_of_stays hR ht hstay hpos
    rw [if_pos rfl, goal, pure_bind]
    exact ⟨_, free hleft hc⟩
  | false =>
    -- nothing depends on the budget, so what is known of another one is of use
    obtain ⟨c, hc, -⟩ := exists_compile_of_stays hR ht hstay Nat.one_pos
    obtain ⟨u, hu⟩ := @exists_compile_eq R limits t hb
    rw [hu] at hc
    cases hc
    rw [if_neg Bool.false_ne_true, pure_bind]
    have costless : compile R limits [] 0 t s = .ok (.free u) s := congrFun (hu 0) s
    exact ⟨u, free rfl costless⟩

/-- Where no hook of the user replaces anything, a term `r` that some term is compiled to with a
budget that is not spent is put together by applying leaves. What `r` is compiled to once more,
whatever was computed since, is equal to `r` exactly when that takes no elimination, and it takes
none exactly when every combinator of `r` but `S`, `K` and `I` is refused a canonical form as the
compiler comes to it. Then every budget that allows for something gives a term equal to `r`. It is
so if none of these combinators has a canonical form in any store that compiling comes by. -/
theorem BracketsTo.recompile (hR : R.hookless = true) {r : Term}
    (hr : t.BracketsTo R limits s r n s') :
    r.Bare ∧
    (∀ s₁ r' n' s₂, r.BracketsTo R limits s₁ r' n' s₂ →
      (∀ s₃, equal R r' r s₃ = .ok (n' = 0) s₃ ∧ equal R r r' s₃ = .ok (n' = 0) s₃) ∧
      (n' = 0 ↔ r.Stays R limits s₁ s₂)) ∧
    (∀ s₁ s₂, r.Stays R limits s₁ s₂ →
      (∀ x, .native x ∈ r.symbols → x.isBase = true ∨ r.Refuses R limits x s₁ s₂) ∧
      ∀ (maxSteps : Amount) (m : Int), maxSteps.goal? = some m → 0 < m →
        ∃ r', r.compileWithin R limits maxSteps s₁ = .ok (r', 0) s₂ ∧
          ∀ s₃, equal R r' r s₃ = .ok true s₃) ∧
    ∀ s₁, (∀ x, .native x ∈ r.symbols →
        x.isBase = true ∨ ∀ s₂, r.Idles R limits s₁ s₂ → x.Refused R limits s₂) →
      ∃ s₂, r.Stays R limits s₁ s₂ := by
  obtain ⟨budget, c, hc, hpos, rfl, -⟩ := hr.exists_compiled
  have bare := ((clean_compile hR limits [] budget t).of_ok hc hpos).1
  have told : ∀ s₁ r' n' s₂, c.value.BracketsTo R limits s₁ r' n' s₂ →
      Told (n' = 0) c.value r' := by
    intro s₁ r' n' s₂ hr'
    obtain ⟨budget', c', hc', hpos', rfl, hzero⟩ := hr'.exists_compiled
    rw [decide_eq_decide.mpr hzero]
    exact ((again_compile hR bare).of_ok hc' hpos').told
  refine ⟨bare, fun s₁ r' n' s₂ hr' => ⟨fun s₃ => ?_, ?_⟩, fun s₁ s₂ hstay => ⟨?_, ?_⟩, ?_⟩
  · have answer := told s₁ r' n' s₂ hr' (equalUnder R)
    exact ⟨congrFun answer.2 s₃, congrFun answer.1 s₃⟩
  · obtain ⟨budget', c', hc', hpos', -, hzero⟩ := hr'.exists_compiled
    refine hzero.trans ⟨stays_of_compile hR bare hc' hpos', fun hstay => ?_⟩
    obtain ⟨d, hd, hleft⟩ := exists_compile_of_stays hR bare hstay
      (Nat.lt_of_lt_of_le hpos' c'.left_le)
    rw [hc'] at hd
    cases hd
    exact hleft
  · exact (hstay.idles fun _ hx => hx).2
  · intro maxSteps m hm hlt
    obtain ⟨r', hr'⟩ := exists_compileWithin hR bare hstay hm hlt
    have answer := told s₁ r' 0 s₂ ⟨maxSteps, m, hm, hlt, hr'⟩ (equalUnder R)
    exact ⟨r', hr', fun s₃ => congrFun answer.2 s₃⟩
  · exact fun s₁ hstay => exists_stays bare (fun _ hx => hx) hstay

/-- A budget that is a number and that compilation leaves something of. -/
private theorem bracketsTo_of_compile {m : Nat} {r : Term} {left : Nat} {hle : left ≤ m}
    (hb : t.isBudgeted = true) (hpos : 0 < left)
    (hc : compile R limits [] m t s = .ok ⟨r, left, hle⟩ s') :
    t.BracketsTo R limits s r (m - left) s' := by
  refine ⟨.number m, m, rfl, by omega, ?_⟩
  unfold compileWithin
  rw [if_pos hb]
  exact Engine.bind_ok_iff.mpr ⟨m, s, rfl, Engine.bind_ok_iff.mpr ⟨_, _, hc, rfl⟩⟩

/-! ### A rule that mentions its own combinator -/

namespace Recurring

/-- A combinator with the rule `R x = x R`. -/
def self : UserNative := ⟨0, "R", 1, .null, false, by decide⟩

def term : Term := native (.user self)

def rules : Rules :=
  { Rules.undeclared with contract := fun _ as => apply Rules.undeclared (as.headD term) [term] }

/-- The limits of a search if no others are given. -/
def ample : Budget := ⟨.number 1000, .number 32⟩

/-- The canonical form, with the identities of its variable and of its application. -/
def form (v : Int) (n : Nat) : Term := lam ⟨"a", v⟩ (app n (var ⟨"a", v⟩) [term])

/-- What the combinator is compiled to, `S I (K R)`, with the identities of its applications. -/
def compiled (m n : Nat) : Term := app m (native .S) [native .I, app n (native .K) [term]]

/-- The combinator fires on its first probe, and the canonical form is closed over that probe. -/
theorem canonical_term {s : Store} (fresh : ∀ m, s.nextNode ≤ m → m ∉ s.settled) :
    term.canonical rules ample s = .ok (some (form (s.nextVariable + 1) (s.nextNode + 2)))
      ⟨s.nextVariable + 2, s.nextNode + 3, s.settled.insert (s.nextNode + 1)⟩ := by
  obtain ⟨v, n, T⟩ := s
  dsimp only at fresh ⊢
  have unsettled (m : Nat) (hm : n ≤ m) : T.contains m = false :=
    Bool.eq_false_iff.mpr fun h => fresh m hm h
  have unfed : term.run rules (.number 1000) [] false ⟨v, n, T⟩ =
      .ok ⟨term, 0, true⟩ ⟨v, n, T⟩ :=
    run_nil_ok_iff.mpr ⟨1000, rfl, runFrom_of_normal rfl, fun h => (Bool.false_ne_true h).elim⟩
  have fires : (app n term [var ⟨"a", v⟩]).step rules ⟨v + 1, n + 1, T⟩ =
      .ok (some ⟨app (n + 1) (var ⟨"a", v⟩) [term], 1⟩) ⟨v + 1, n + 2, T⟩ := by
    simp [step, Engine.isSettled, unsettled n (Nat.le_refl n), term, reduce, Native.contract,
      Native.arity, self, rules, apply, firstLiteral, literal?, extend, Engine.node, bind,
      EStateM.bind, pure, EStateM.pure]
  have idle : (app (n + 1) (var ⟨"a", v⟩) [term]).step rules ⟨v + 1, n + 2, T⟩ =
      .ok none ⟨v + 1, n + 2, T.insert (n + 1)⟩ := by
    simp [step, stepAmong, Engine.isSettled, unsettled (n + 1) (Nat.le_succ n), Engine.settle,
      reduce, term, bind, EStateM.bind, pure, EStateM.pure]
  have fed : (app n term [var ⟨"a", v⟩]).run rules (.number 1000) [] false ⟨v + 1, n + 1, T⟩ =
      .ok ⟨app (n + 1) (var ⟨"a", v⟩) [term], 1, true⟩ ⟨v + 1, n + 2, T.insert (n + 1)⟩ := by
    refine run_nil_ok_iff.mpr ⟨1000, rfl, ?_, fun h => (Bool.false_ne_true h).elim⟩
    rw [runFrom_of_step (by decide) fires Nat.one_ne_zero]
    exact runFrom_of_normal idle
  have abstracted : abstract rules ⟨"a", v⟩ (app (n + 1) (var ⟨"a", v⟩) [term])
      ⟨v + 1, n + 2, T.insert (n + 1)⟩ =
        .ok (form (v + 1) (n + 2)) ⟨v + 2, n + 3, T.insert (n + 1)⟩ := by
    have depth : (app (n + 1) (var ⟨"a", v⟩) [term]).rebuildDepth = 999 + 1 := rfl
    unfold abstract close
    rw [depth, closeWithin.eq_3]
    · simp [replace, replaceAll, term, form, apply, firstLiteral, literal?, extend, Engine.node,
        Engine.freshVariable, isNull, bind, EStateM.bind, pure, EStateM.pure, Int.add_assoc]
    · simp
  have closed : ∃ c, closeProbes rules [⟨"a", v⟩] (app (n + 1) (var ⟨"a", v⟩) [term])
      ⟨v + 1, n + 2, T.insert (n + 1)⟩ = .ok c ⟨v + 2, n + 3, T.insert (n + 1)⟩ ∧
        c.term = form (v + 1) (n + 2) := by
    have all : abstractAll rules [⟨"a", v⟩] (app (n + 1) (var ⟨"a", v⟩) [term])
        ⟨v + 1, n + 2, T.insert (n + 1)⟩ =
          .ok (form (v + 1) (n + 2)) ⟨v + 2, n + 3, T.insert (n + 1)⟩ :=
      Engine.bind_ok_iff.mpr ⟨_, _, rfl, abstracted⟩
    exact ⟨_, Engine.bind_ok_iff.mpr ⟨_, _, rfl, Engine.bind_ok_iff.mpr ⟨_, _, all, rfl⟩⟩, rfl⟩
  obtain ⟨c, hc, hform⟩ := closed
  have found : term.canonicalize rules ample false ⟨v, n, T⟩ =
      .ok (.found c 1) ⟨v + 2, n + 3, T.insert (n + 1)⟩ := by
    refine canonicalize_found_iff.mpr ⟨32, rfl, searchFrom_found_iff.mpr
      ⟨term, 0, _, unfed, .inr ⟨rfl, ⟨"a", v⟩, ⟨v + 1, n, T⟩, _, _, rfl, rfl, ?_⟩⟩⟩
    exact searchFrom_found_iff.mpr ⟨_, 1, _, fed, .inl ⟨rfl, hc, rfl⟩⟩
  rw [← hform]
  exact Engine.bind_ok_iff.mpr ⟨_, _, found, rfl⟩

/-- What is known to be normal after one compilation of the combinator, and after two. -/
def once : Std.HashSet Nat := Std.HashSet.insert ∅ 1
def twice : Std.HashSet Nat := once.insert 7

/-- The canonical form is compiled while the combinator is being expanded. -/
theorem compile_form (T : Std.HashSet Nat) :
    (form 2 2).compile rules ample [.user self] 8 ⟨3, 3, T⟩ =
        .ok ⟨compiled 5 4, 5, by decide⟩ ⟨5, 6, T⟩ ∧
      (form 6 8).compile rules ample [.user self] 8 ⟨7, 9, T⟩ =
        .ok ⟨compiled 11 10, 5, by decide⟩ ⟨9, 12, T⟩ := by
  constructor <;> cbv

/-- The combinator is expanded, at the cost of one elimination. -/
theorem compile_term : term.compile rules ample [] 9 ⟨1, 0, ∅⟩ =
    .ok ⟨compiled 5 4, 5, by decide⟩ ⟨5, 6, once⟩ := by
  have found := canonical_term (s := ⟨1, 0, ∅⟩) fun m _ => Std.HashSet.not_mem_empty
  unfold term compile
  exact Engine.bind_ok_iff.mpr ⟨_, _, found,
    Engine.bind_ok_iff.mpr ⟨_, _, (compile_form once).1, rfl⟩⟩

/-- It is expanded again inside of what it was compiled to. -/
theorem compile_term_again : term.compile rules ample [] 9 ⟨5, 6, once⟩ =
    .ok ⟨compiled 11 10, 5, by decide⟩ ⟨9, 12, twice⟩ := by
  have found := canonical_term (s := ⟨5, 6, once⟩) fun m hm hmem => by
    rcases Std.HashSet.mem_insert.mp hmem with heq | hmem
    · have : 1 = m := by simpa using heq
      exact absurd (this ▸ hm) (by decide)
    · exact Std.HashSet.not_mem_empty hmem
  unfold term compile
  exact Engine.bind_ok_iff.mpr ⟨_, _, found,
    Engine.bind_ok_iff.mpr ⟨_, _, (compile_form twice).2, rfl⟩⟩

/-- The term `S I (K (S I (K R)))`. -/
def nested : Term := app 13 (native .S) [native .I, app 12 (native .K) [compiled 11 10]]

theorem compile_compiled : (compiled 5 4).compile rules ample [] 9 ⟨5, 6, once⟩ =
    .ok ⟨nested, 5, by decide⟩ ⟨9, 14, twice⟩ := by
  have inner : (app 4 (native .K) [term]).compile rules ample [] 9 ⟨5, 6, once⟩ =
      .ok ⟨app 12 (native .K) [compiled 11 10], 5, by decide⟩ ⟨9, 13, twice⟩ :=
    compile_app_ok (by decide) (compile_base_ok rfl)
      (compileAll_cons_ok compile_term_again compileAll_nil_ok) rfl
  exact compile_app_ok (by decide) (compile_base_ok rfl)
    (compileAll_cons_ok (compile_base_ok rfl) (compileAll_cons_ok inner compileAll_nil_ok)) rfl

theorem bracketsTo_term :
    term.BracketsTo rules ample ⟨1, 0, ∅⟩ (compiled 5 4) 4 ⟨5, 6, once⟩ :=
  bracketsTo_of_compile rfl (by decide) compile_term

theorem bracketsTo_compiled :
    (compiled 5 4).BracketsTo rules ample ⟨5, 6, once⟩ nested 4 ⟨9, 14, twice⟩ :=
  bracketsTo_of_compile rfl (by decide) compile_compiled

end Recurring

/-! ### Combinators that are refused a canonical form -/

/-- A combinator is refused a canonical form where every step after its first probe is followed by
another one. -/
theorem canonical_none_of_progress {P : Term → Store → Prop}
    (progress : ∀ t s, P t s → ∃ u s', step R t s = .ok (some ⟨u, 1⟩) s' ∧ P u s') {n k : Nat}
    (hsteps : limits.steps.bound? = some (n : Int))
    (hargs : limits.args.whole? = some ((k + 2 : Nat) : Int))
    {v : Variable} {s₁ s₂ : Store} (hv : Engine.freshVariable "a" s = .ok v s₁)
    (hw : apply R (native x) [var v] s₁ = .ok t s₂) (h : P t s₂) :
    ∃ u s', canonical R limits (native x) s = .ok none s' ∧ P u s' := by
  obtain ⟨w, s', u, hrun, hu⟩ := exists_runFrom_of_progress progress h n 0 patience
  rw [Nat.zero_add] at hrun
  have unfed : run R limits.steps (native x) [] false s = .ok ⟨native x, 0, true⟩ s :=
    run_nil_ok_iff.mpr ⟨n, hsteps, runFrom_of_normal rfl, fun h => (Bool.false_ne_true h).elim⟩
  have fed : run R limits.steps t [] false s₂ = .ok ⟨w, n, false⟩ s' :=
    run_nil_ok_iff.mpr ⟨n, hsteps, hrun, fun h => (Bool.false_ne_true h).elim⟩
  have searched : searchFrom R limits.steps (native x) [] 0 (k + 2) s = .ok (none, n) s' := by
    have last : searchFrom R limits.steps t [v] 0 (k + 1) s₂ = .ok (none, n) s' := by
      rw [searchFrom, Engine.bind_of_ok fed, Nat.zero_add]
      rfl
    rw [searchFrom, Engine.bind_of_ok unfed]
    exact Engine.bind_ok_iff.mpr ⟨v, s₁, hv, Engine.bind_ok_iff.mpr ⟨t, s₂, hw, last⟩⟩
  have unguessed : guess R limits (native x) patience s' = .ok none s' := by
    unfold guess
    rfl
  have none : canonicalize R limits (native x) false s = .ok (.notFound none n) s' := by
    have found : search R limits (native x) s = .ok (none, n) s' := by
      unfold search
      rw [Engine.whole, hargs, pure_bind]
      exact searched
    rw [canonicalize, Engine.bind_of_ok found]
    exact Engine.bind_ok_iff.mpr ⟨none, s', unguessed, rfl⟩
  exact ⟨u, s', Engine.bind_ok_iff.mpr ⟨_, s', none, rfl⟩, hu⟩

namespace Endless

/-- A combinator with the rule `Y f = f (Y f)`. -/
def self : UserNative := ⟨2, "Y", 1, .null, false, by decide⟩

def term : Term := native (.user self)

def rules : Rules :=
  { Rules.undeclared with contract := fun _ as => do
      apply Rules.undeclared (as.headD term) [← apply Rules.undeclared term as] }

/-- The abstraction `λ x, Y`, and the term `K Y` that it is compiled to. -/
def constant : Term := lam ⟨"x", 0⟩ term
def kept (n : Nat) : Term := app n (native .K) [term]

/-- The terms `v (v … (Y v))` whose applications have been made from some time on. -/
inductive Climbs (v : Variable) (k : Nat) : Term → Prop
  | bottom {n : Nat} (hn : k ≤ n) : Climbs v k (app n term [var v])
  | above {n : Nat} {t : Term} (hn : k ≤ n) (ht : Climbs v k t) : Climbs v k (app n (var v) [t])

/-- Such a term takes a step, by which it gets longer. -/
theorem Climbs.progress {v : Variable} {k : Nat} {t : Term} (ht : Climbs v k t) {s : Store}
    (fresh : ∀ n, k ≤ n → n ∉ s.settled) (hk : k ≤ s.nextNode) :
    ∃ u s', t.step rules s = .ok (some ⟨u, 1⟩) s' ∧ Climbs v k u ∧ s'.settled = s.settled ∧
      s.nextNode ≤ s'.nextNode := by
  induction ht with
  | @bottom n hn =>
    have fires : reduce rules term [var v] s =
        .ok (some (app (s.nextNode + 1) (var v) [app s.nextNode term [var v]]))
          { s with nextNode := s.nextNode + 2 } := rfl
    refine ⟨_, _, step_app_of_reduce (fresh n hn) fires, ?_, rfl, Nat.le_add_right _ 2⟩
    exact .above (Nat.le_succ_of_le hk) (.bottom hk)
  | @above n t hn ht ih =>
    obtain ⟨u, s', hstep, hu, hset, hle⟩ := ih
    refine ⟨app s'.nextNode (var v) [u], { s' with nextNode := s'.nextNode + 1 }, ?_, ?_, hset, ?_⟩
    · have waits : reduce rules (var v) [t] s = .ok none s := rfl
      have among : stepAmong rules [t] s = .ok (some ⟨[u], 1⟩) s' := by
        rw [stepAmong, Engine.bind_of_ok hstep]
        rfl
      rw [step, Engine.bind_of_ok (Engine.isSettled_of_not_mem (fresh n hn)),
        if_neg Bool.false_ne_true, Engine.bind_of_ok waits]
      refine Engine.bind_ok_iff.mpr ⟨none, s, rfl, Engine.bind_ok_iff.mpr ⟨_, s', among, ?_⟩⟩
      cases hu with
      | bottom _ => rfl
      | above _ _ => rfl
    · exact .above (Nat.le_trans hk hle) hu
    · exact Nat.le_succ_of_le hle

/-- No canonical form is found. -/
theorem canonical_term {s : Store} (hs : s.Sane) : ∃ s', term.canonical rules Recurring.ample s =
    .ok none s' ∧ s'.settled = s.settled ∧ s.nextNode ≤ s'.nextNode := by
  let v : Variable := ⟨"a", s.nextVariable⟩
  have progress (t : Term) (s₁ : Store) (h : Climbs v s.nextNode t ∧ s₁.settled = s.settled ∧
      s.nextNode ≤ s₁.nextNode) : ∃ u s₂, t.step rules s₁ = .ok (some ⟨u, 1⟩) s₂ ∧
        Climbs v s.nextNode u ∧ s₂.settled = s.settled ∧ s.nextNode ≤ s₂.nextNode := by
    obtain ⟨ht, hset, hle⟩ := h
    have fresh (n : Nat) (hn : s.nextNode ≤ n) : n ∉ s₁.settled := hset ▸ hs.not_mem_settled hn
    obtain ⟨u, s₂, hstep, hu, hset', hle'⟩ := ht.progress fresh hle
    exact ⟨u, s₂, hstep, hu, hset'.trans hset, Nat.le_trans hle hle'⟩
  have minted : Engine.freshVariable "a" s = .ok v { s with nextVariable := s.nextVariable + 1 } :=
    rfl
  have fed : apply rules term [var v] { s with nextVariable := s.nextVariable + 1 } =
      .ok (app s.nextNode term [var v]) ⟨s.nextVariable + 1, s.nextNode + 1, s.settled⟩ := rfl
  have steps : Recurring.ample.steps.bound? = some ((1000 : Nat) : Int) := rfl
  have args : Recurring.ample.args.whole? = some ((30 + 2 : Nat) : Int) := rfl
  obtain ⟨-, s', hnone, -, hset, hle⟩ := canonical_none_of_progress progress steps args minted fed
    ⟨.bottom (Nat.le_refl s.nextNode), rfl, Nat.le_succ s.nextNode⟩
  exact ⟨s', hnone, hset, hle⟩

/-- The combinators of `K Y`. -/
theorem symbols_kept {n : Nat} {x : Native} (hx : .native x ∈ (kept n).symbols) :
    x.isBase = true ∨ x = .user self := by
  have cases : x = .K ∨ x = .user self := by
    simpa [kept, term, symbols, symbolsUnder, symbolsOfAll] using hx
  rcases cases with rfl | rfl
  · exact .inl rfl
  · exact .inr rfl

/-- Compiling `K Y` at no cost leaves the store sane. -/
theorem sane_of_idles {n : Nat} {s s' : Store} (h : (kept n).Idles rules Recurring.ample s s')
    (hs : s.Sane) : s'.Sane := by
  induction h with
  | refl => exact hs
  | tail _ move ih =>
    cases move with
    | refuse hx hbase hnone =>
      rcases symbols_kept hx with hx | rfl
      · exact absurd hx (by simp [hbase])
      · obtain ⟨s₂, hsearch, hset, hle⟩ := canonical_term ih
        rw [term, hnone] at hsearch
        cases hsearch
        exact ih.of_settled_eq hle hset
    | make hnode =>
      cases hnode
      exact ih.of_settled_eq (Nat.le_succ _) rfl

/-- So `Y` is refused a canonical form whenever the compiler comes to it. -/
theorem refused_of_idles {n : Nat} {s : Store} (hs : s.Sane) {x : Native}
    (hx : .native x ∈ (kept n).symbols) :
    x.isBase = true ∨ ∀ s₁, (kept n).Idles rules Recurring.ample s s₁ →
      x.Refused rules Recurring.ample s₁ := by
  refine (symbols_kept hx).imp_right fun hself s₁ h => ?_
  obtain ⟨s₂, hnone, -⟩ := canonical_term (sane_of_idles h hs)
  exact ⟨s₂, hself ▸ hnone⟩

/-- The abstraction is compiled by one elimination. -/
theorem bracketsTo_constant : ∃ n s', s'.Sane ∧
    constant.BracketsTo rules Recurring.ample ⟨1, 0, ∅⟩ (kept n) 1 s' := by
  have sane : (⟨1, 0, ∅⟩ : Store).Sane := .of_settled_eq_empty rfl
  obtain ⟨s', hnone, hset, hle⟩ := canonical_term sane
  have body : term.compile rules Recurring.ample [] 9 ⟨1, 0, ∅⟩ = .ok (.free term) s' :=
    compile_native_of_refused rfl (by decide) hnone
  have compiled : constant.compile rules Recurring.ample [] 9 ⟨1, 0, ∅⟩ =
      .ok ⟨kept s'.nextNode, 8, by decide⟩ { s' with nextNode := s'.nextNode + 1 } := by
    rw [constant, compile_lam, eliminate, Engine.bind_of_ok body]
    rfl
  have later : Store.Sane { s' with nextNode := s'.nextNode + 1 } :=
    (sane.of_settled_eq hle hset).of_settled_eq (Nat.le_succ _) rfl
  exact ⟨s'.nextNode, _, later, bracketsTo_of_compile rfl (by decide) compiled⟩

end Endless

/-- Since `Y` has no canonical form, every budget that allows for something compiles `K Y` to an
equal term, whatever was computed since it was compiled itself. The combinator `R` has one, and so
the result is another term. -/
theorem recompile_recurring :
    (Endless.rules.hookless = true ∧ ∃ n s₀, s₀.Sane ∧
      Endless.constant.BracketsTo Endless.rules Recurring.ample ⟨1, 0, ∅⟩ (Endless.kept n) 1 s₀ ∧
      ∀ s, s.Sane → ∃ s', ∀ (maxSteps : Amount) (m : Int), maxSteps.goal? = some m → 0 < m →
        ∃ r, (Endless.kept n).compileWithin Endless.rules Recurring.ample maxSteps s =
            .ok (r, 0) s' ∧
          ∀ s'', equal Endless.rules r (Endless.kept n) s'' = .ok true s'') ∧
    Recurring.rules.hookless = true ∧
    Recurring.term.BracketsTo Recurring.rules Recurring.ample ⟨1, 0, ∅⟩ (Recurring.compiled 5 4) 4
      ⟨5, 6, Recurring.once⟩ ∧
    (Recurring.compiled 5 4).BracketsTo Recurring.rules Recurring.ample ⟨5, 6, Recurring.once⟩
      Recurring.nested 4 ⟨9, 14, Recurring.twice⟩ ∧
    ∀ s, equal Recurring.rules Recurring.nested (Recurring.compiled 5 4) s = .ok false s := by
  constructor
  · obtain ⟨n, s₀, hs₀, hn⟩ := Endless.bracketsTo_constant
    obtain ⟨-, -, same, stays⟩ := hn.recompile rfl
    refine ⟨rfl, n, s₀, hs₀, hn, fun s hs => ?_⟩
    obtain ⟨s', hstay⟩ := stays s fun _ => Endless.refused_of_idles hs
    exact ⟨s', (same s s' hstay).2⟩
  · obtain ⟨-, told, -⟩ := Recurring.bracketsTo_term.recompile rfl
    exact ⟨rfl, Recurring.bracketsTo_term, Recurring.bracketsTo_compiled,
      fun s => ((told _ _ _ _ Recurring.bracketsTo_compiled).1 s).1⟩

/-! ### A hook that gives a lambda -/

namespace Hooked

/-- A combinator that replaces itself and a combinator by a lambda, with the rule `H x = H x`. -/
def self : UserNative := ⟨1, "H", 1, .null, true, by decide⟩

def identity : Term := lam ⟨"x", 0⟩ (var ⟨"x", 0⟩)

def rules : Rules where
  replacement
    | _, native _ => pure (some identity)
    | _, _ => pure none
  contract _ as := Engine.node (native (.user self)) as
  evaluate := pure
  hookless := false
  replacement_none := nofun

/-- The combinator applied to a name for `I`, which its hook leaves alone. -/
def term : Term :=
  app 1 (native (.user self)) [named ⟨0, "A", .number 1, .bool true, .bool true, .null⟩ (native .I)]

/-- The combinator has no canonical form. -/
theorem canonical_self :
    ∃ s, (native (.user self)).canonical rules Recurring.ample ⟨1, 2, ∅⟩ = .ok none s := by
  have progress (t : Term) (s : Store)
      (h : (∃ n v, t = app n (native (.user self)) [var v]) ∧ s.settled = ∅) :
      ∃ u s', t.step rules s = .ok (some ⟨u, 1⟩) s' ∧
        (∃ n v, u = app n (native (.user self)) [var v]) ∧ s'.settled = ∅ := by
    obtain ⟨⟨n, v, rfl⟩, hs⟩ := h
    have unsettled : n ∉ s.settled := by
      rw [hs]
      exact Std.HashSet.not_mem_empty
    exact ⟨app s.nextNode (native (.user self)) [var v], { s with nextNode := s.nextNode + 1 },
      step_app_of_reduce unsettled rfl, ⟨_, _, rfl⟩, hs⟩
  have minted : Engine.freshVariable "a" ⟨1, 2, ∅⟩ = .ok ⟨"a", 1⟩ ⟨2, 2, ∅⟩ := rfl
  have fed : apply rules (native (.user self)) [var ⟨"a", 1⟩] ⟨2, 2, ∅⟩ =
      .ok (app 2 (native (.user self)) [var ⟨"a", 1⟩]) ⟨2, 3, ∅⟩ := rfl
  have steps : Recurring.ample.steps.bound? = some ((1000 : Nat) : Int) := rfl
  have args : Recurring.ample.args.whole? = some ((30 + 2 : Nat) : Int) := rfl
  obtain ⟨-, s, hnone, -⟩ := canonical_none_of_progress progress steps args minted fed
    ⟨⟨2, _, rfl⟩, rfl⟩
  exact ⟨s, hnone⟩

/-- Compiled, the name gives way to `I`, and then the hook is met. -/
theorem bracketsTo_term :
    ∃ s, term.BracketsTo rules Recurring.ample ⟨1, 2, ∅⟩ identity 0 s := by
  obtain ⟨s, hnone⟩ := canonical_self
  have compiled : term.compile rules Recurring.ample [] 9 ⟨1, 2, ∅⟩ =
      .ok ⟨identity, 9, by decide⟩ s :=
    compile_app_ok (by decide) (compile_native_of_refused rfl (by decide) hnone)
      (compileAll_cons_ok (compile_named_ok (compile_base_ok rfl)) compileAll_nil_ok) rfl
  exact ⟨s, bracketsTo_of_compile rfl (by decide) compiled⟩

theorem bracketsTo_identity (s : Store) :
    identity.BracketsTo rules Recurring.ample s (native .I) 1 s := by
  have body : (var ⟨"x", 0⟩).compile rules Recurring.ample [] 9 s =
      .ok (.free (var ⟨"x", 0⟩)) s := by
    unfold compile
    rfl
  have compiled : identity.compile rules Recurring.ample [] 9 s =
      .ok ⟨native .I, 8, by decide⟩ s := by
    rw [identity, compile_lam, eliminate, Engine.bind_of_ok body]
    rfl
  exact bracketsTo_of_compile rfl (by decide) compiled

end Hooked

/-- A compiled term is not always equal to what it is compiled to once more: not where a combinator
with the rule `R x = x R` was left inside its own expansion, and not where a hook gave a lambda. -/
theorem recompile_not_equal :
    (∃ s s', Recurring.term.BracketsTo Recurring.rules Recurring.ample ⟨1, 0, ∅⟩
        (Recurring.compiled 5 4) 4 s ∧
      (Recurring.compiled 5 4).BracketsTo Recurring.rules Recurring.ample s Recurring.nested 4 s' ∧
      equal Recurring.rules Recurring.nested (Recurring.compiled 5 4) s' = .ok false s') ∧
    ∃ s s', Hooked.term.BracketsTo Hooked.rules Recurring.ample ⟨1, 2, ∅⟩ Hooked.identity 0 s ∧
      Hooked.identity.BracketsTo Hooked.rules Recurring.ample s (native .I) 1 s' ∧
      equal Hooked.rules (native .I) Hooked.identity s' = .ok false s' := by
  obtain ⟨s, hs⟩ := Hooked.bracketsTo_term
  refine ⟨⟨_, _, Recurring.bracketsTo_term, Recurring.bracketsTo_compiled, ?_⟩,
    ⟨s, s, hs, Hooked.bracketsTo_identity s, ?_⟩⟩
  · cbv
  · cbv

end Term

end Combinatory
