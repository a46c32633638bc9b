import Combinatory.Proofs.Elimination
import Combinatory.Proofs.Invariant

/-!
# Budgets that are not enough

Elimination of a variable from a combination of `S`, `K` and `I` takes a number of eliminations that
is known beforehand. A budget that is smaller is spent, and a lambda is left (`cutsOff_eliminate`):
only an application that is shared by `S` takes more than one elimination, and of its two halves the
one for which nothing is left stays below its lambda.
-/

namespace Combinatory

open Engine (Yields)

namespace Term

variable {R : Rules} {limits : Budget} {expanding : List Native} {s : Store}

/-! ### Lambdas that are left -/

private theorem hasLambda_lam (v : Variable) (b : Term) : (lam v b).hasLambda = true := by
  simp [hasLambda, symbols, symbolsUnder]

/-- There is no lambda in a combination. -/
theorem Forms.hasLambda_eq_false {t : Term} {c : Combination} (ht : t.Forms c)
    (hc : IsBasic c) : t.hasLambda = false := by
  rw [hasLambda, symbols, symbolsUnder_eq ht.isCombination, ht.combination, List.append_nil,
    Bool.eq_false_iff, ne_eq, List.contains_iff_mem]
  clear ht
  induction c with
  | var v => simp [Combination.symbols]
  | native d =>
    rw [Combination.symbols, List.mem_singleton]
    rintro ⟨⟩
    cases hc
  | app f a ihf iha =>
    rw [Combination.symbols, List.mem_append]
    exact fun h => h.elim (ihf hc.1) (iha hc.2)

/-- A compilation that has spent its budget and left a lambda. -/
structure Cut {budget : Nat} (o : Compiled Term budget) : Prop where
  left : o.left = 0
  lambda : o.value.hasLambda = true

/-- A lambda is left where one is abstracted. -/
private theorem givesOnly_abstract_cut {budget : Nat} (v : Variable) (b : Term) :
    GivesOnly (do return (⟨← abstract R v b, 0, Nat.zero_le _⟩ : Compiled Term budget)) Cut := by
  have made : GivesOnly (abstract R v b) fun u => u.hasLambda = true := by
    unfold abstract
    apply (givesOnly_anything (close R v b)).bind
    intro q _
    exact .pure (hasLambda_lam _ _)
  apply made.bind
  intro u hu
  exact .pure ⟨rfl, hu⟩

/-- A lambda is left where one was left in either half. -/
private theorem givesOnly_shared_cut {budget left : Nat} (hle : left ≤ budget) (hleft : left = 0)
    {f a : Term} (h : f.hasLambda = true ∨ a.hasLambda = true) :
    GivesOnly (do return (⟨← apply R (native .S) [f, a], left, hle⟩ : Compiled Term budget))
      Cut := by
  have made : GivesOnly (apply R (native .S) [f, a]) fun u => u.hasLambda = true := by
    unfold apply
    split
    · exact .throw trivial
    · have kept : (Native.S).replacement R f = pure none := rfl
      simp only [extend, kept, pure_bind]
      refine (Engine.ends_node (native .S) [f, a]).imp ?_
      rintro _ ⟨n, rfl⟩
      have whole : (app n (native .S) [f, a]).symbols = .native .S :: (f.symbols ++ a.symbols) := by
        rw [symbols, symbolsUnder, symbolsUnder, symbolsOfAll, symbolsUnder_eq_append]
        rfl
      simpa [hasLambda, whole] using h
  apply made.bind
  intro u hu
  exact .pure ⟨hleft, hu⟩

/-- Whether a compilation leaves a lambda, if it gives anything. -/
def CutsOff {budget : Nat} (x : Engine (Compiled Term budget)) (s : Store) : Prop :=
  s.Sane → ∀ o s', x s = .ok o s' → Cut o

namespace CutsOff

theorem of_givesOnly {budget : Nat} {x : Engine (Compiled Term budget)} (hx : GivesOnly x Cut) :
    CutsOff x s := fun _ _ _ h => hx.of_ok h

/-- A lambda is left if one is left in the end. -/
protected theorem bind {α : Type} {budget : Nat} {x : Engine α} {P : α → Store → Prop}
    {f : α → Engine (Compiled Term budget)} (hx : Yields x s P)
    (hf : ∀ a s', s ≤ s' → P a s' → CutsOff (f a) s') : CutsOff (x >>= f) s := by
  intro hs o s' h
  obtain ⟨a, s₁, ha, h⟩ := Engine.bind_ok_iff.mp h
  obtain ⟨hs₁, hle, hp⟩ := hx.of_ok hs ha
  exact hf a s₁ hle hp hs₁ o s' h

/-- A lambda is left if it stays where one was left. -/
theorem andThen {small large : Nat} {x : Engine (Compiled Term small)}
    {f : Compiled Term small → Engine (Compiled Term large)} (hx : CutsOff x s)
    (hf : ∀ o, Cut o → GivesOnly (f o) Cut) : CutsOff (x >>= f) s := by
  intro hs o s' h
  obtain ⟨c, s₁, hc, h⟩ := Engine.bind_ok_iff.mp h
  exact (hf c (hx hs c s₁ hc)).of_ok h

/-- Where a lambda was left in the body, one more is left. -/
protected theorem eliminate {budget : Nat} {v : Variable} {body : Term}
    (hbody : CutsOff (compile R limits expanding budget body) s) :
    CutsOff (Term.eliminate R limits expanding budget v body) s := by
  unfold Term.eliminate
  refine hbody.andThen fun c hc => ?_
  split
  · exact givesOnly_abstract_cut v c.value
  · next rest hrest =>
    have := hc.left
    omega

end CutsOff

/-- Whether a budget leaves a lambda where it is not enough to eliminate a variable. -/
def FallsShort (R : Rules) (limits : Budget) (expanding : List Native) (budget : Nat) : Prop :=
  ∀ (s : Store) (v : Variable) (body : Term) (c : Combination), body.Forms c → IsBasic c →
    (∀ w, c.Mentions w → s.Minted w) → budget < Combination.eliminations v c →
      CutsOff (eliminate R limits expanding budget v body) s

/-- Where a variable is not eliminated from both halves of an application, a lambda is left. -/
private theorem cutsOff_shared {budget rest : Nat} (hle : rest ≤ budget)
    (h : ∀ m ≤ rest, FallsShort R limits expanding m) {v : Variable} {front last : Term}
    {f a : Combination} (hf : front.Forms f) (ha : last.Forms a) (hc : IsBasic (.app f a))
    (hm : ∀ w, (Combination.app f a).Mentions w → s.Minted w)
    (short : rest < Combination.eliminations v f + Combination.eliminations v a) :
    CutsOff (do
      let (v₁, front) ← close R v front
      let front ← eliminate R limits expanding rest v₁ front
      let (v₂, last) ← close R v last
      let last ← eliminate R limits expanding front.left v₂ last
      return (⟨← apply R (native .S) [front.value, last.value], last.left,
        Nat.le_trans last.left_le (Nat.le_trans front.left_le hle)⟩ : Compiled Term budget)) s := by
  apply CutsOff.bind (yields_close_basic hf hc.1 fun w hw => hm w (.inl hw))
  rintro ⟨v₁, front₁⟩ s₁ hs₁ ⟨d, hfront₁, hd, minted₁⟩
  dsimp only
  by_cases enough : Combination.eliminations v f ≤ rest
  · -- the budget is enough for the front, and not for the last part
    have eliminated : Yields (eliminate R limits expanding rest v₁ front₁) s₁ fun o _ =>
        Leaves (Combination.bracket v₁ d) (rest - Combination.eliminations v₁ d) o :=
      yields_eliminate (hfront₁.compile hd.basic s₁) hd.basic minted₁ (hd.eliminations ▸ enough)
    apply CutsOff.bind eliminated
    rw [hd.eliminations]
    rintro front₂ s₂ hs₂ ⟨-, hleft₂⟩
    have hma : ∀ w, a.Mentions w → s₂.Minted w := fun w hw =>
      (hm w (.inr hw)).mono (Store.le_trans hs₁ hs₂)
    apply CutsOff.bind (yields_close_basic ha hc.2 hma)
    rintro ⟨v₂, last₁⟩ s₃ - ⟨e, hlast₁, he, minted₃⟩
    have cut := h front₂.left (by omega) s₃ v₂ last₁ e hlast₁ he.basic minted₃
      (by rw [he.eliminations]; omega)
    exact cut.andThen fun last₂ hlast₂ =>
      givesOnly_shared_cut _ hlast₂.left (.inr hlast₂.lambda)
  · have cut := h rest (Nat.le_refl rest) s₁ v₁ front₁ d hfront₁ hd.basic minted₁
      (by rw [hd.eliminations]; omega)
    refine cut.andThen fun front₂ hfront₂ => ?_
    apply (givesOnly_anything (close R v last)).bind
    rintro ⟨v₂, last₁⟩ -
    apply (givesOnly_anything _).bind
    intro last₂ _
    have spent : last₂.left = 0 := Nat.le_zero.mp (hfront₂.left ▸ last₂.left_le)
    exact givesOnly_shared_cut _ spent (.inl hfront₂.lambda)

/-- A budget that is not enough to eliminate a variable leaves a lambda. -/
theorem cutsOff_eliminate {left budget : Nat} {v : Variable} {body : Term} {c : Combination}
    (hbody : Yields (compile R limits expanding budget body) s fun o _ => Leaves c left o)
    (hc : IsBasic c) (hm : ∀ w, c.Mentions w → s.Minted w)
    (short : left < Combination.eliminations v c) :
    CutsOff (eliminate R limits expanding budget v body) s := by
  induction left using Nat.strongRecOn generalizing budget v body c s with
  | ind left ih =>
  have smaller (m : Nat) (hm : m < left) : FallsShort R limits expanding m :=
    fun s v body c hform hc hminted hshort => ih m hm (hform.compile hc s) hc hminted hshort
  unfold eliminate
  apply CutsOff.bind hbody
  rintro o s₁ hs ⟨hform, hleft⟩
  split
  · exact .of_givesOnly (givesOnly_abstract_cut v o.value)
  · next rest hrest =>
    have hl : rest < left := by omega
    -- only an application that is shared by `S` takes more than one elimination
    dsimp only
    split
    · next w hw =>
      rw [hw] at hform
      obtain rfl : Combination.var w = c := hform.combination
      rw [Combination.eliminations] at short
      omega
    · next m hd as happ =>
      rw [happ] at hform
      obtain ⟨f, a, rfl⟩ := hform.exists_app
      rw [Combination.eliminations] at short
      have hmem : (Combination.app f a).Mentions v := by
        by_contra hmem
        rw [if_pos hmem] at short
        omega
      rw [if_neg (not_not.mpr hmem)] at short
      have heta : ¬ (a = .var v ∧ ¬ f.Mentions v) := by
        intro heta
        rw [if_pos heta] at short
        omega
      rw [if_neg heta] at short
      rw [happ, hform.mentions_eq v, pure_bind, decide_eq_true hmem, if_neg (by decide)]
      apply CutsOff.bind (yields_split hform s₁)
      rintro ⟨front, last⟩ s₂ hs₂ ⟨hfront, hlast⟩
      dsimp only at hfront hlast ⊢
      rw [endsIn_eq hfront hlast v, pure_bind, decide_eq_false heta, if_neg Bool.false_ne_true]
      have hle : rest ≤ budget := by
        have := o.left_le
        omega
      exact cutsOff_shared hle (fun m hm => smaller m (by omega)) hfront hlast hc
        (fun w hw => ((hm w hw).mono hs).mono hs₂) (by omega)
    · next t hvar happ =>
      obtain ⟨d, rfl⟩ := hform.exists_native hvar happ
      rw [Combination.eliminations] at short
      omega

end Term

end Combinatory
