import Combinatory.Proofs.Ending.Canonical
import Combinatory.Proofs.Meaning.Bracket

/-!
# Compilation ends

Within limits that are numbers, compilation ends with a term of the kinds at hand, if `S`, `K` and
`I` are among them.
-/

namespace Combinatory

open Engine (Ends)

variable {K : Kinds} {R : Rules} {limits : Budget} {budget : Nat} {v : Variable}

/-- Whether terms may be made of the combinators that compilation ends with. -/
def Kinds.HasBase (K : Kinds) : Prop := ∀ c, c.isBase = true → K.native c

namespace Term

/-- What compilation gives is made of the kinds at hand. -/
abbrev CompiledOf (K : Kinds) (c : Compiled Term budget) : Prop := c.value.MadeOf K

/-- Compilation within a budget ends. -/
def EndsWithin (K : Kinds) (R : Rules) (limits : Budget) (budget : Nat) : Prop :=
  ∀ (expanding : List Native) (t : Term), t.MadeOf K →
    Ends (compile R limits expanding budget t) K.Obstacle (CompiledOf K)

private theorem ends_mentions {t : Term} (ht : t.MadeOf K) (v : Variable) :
    Ends (mentions v t) K.Obstacle fun _ => True := by
  rw [mentions, ht.counted_eq, pure_bind]
  exact .pure trivial

private theorem ends_endsIn {front : Term} (hf : front.MadeOf K) (v : Variable) (last : Term) :
    Ends (endsIn v front last) K.Obstacle fun _ => True := by
  unfold endsIn
  split
  · split
    · exact (ends_mentions hf v).bind fun _ _ => .pure trivial
    · exact .pure trivial
  · exact .pure trivial

/-- A rule that ends makes a compiled term of what it gives. -/
private theorem ends_rule {x : Engine Term} {left : Nat} (h : left ≤ budget)
    (hx : Ends x K.Obstacle (MadeOf K)) :
    Ends (do return (⟨← x, left, h⟩ : Compiled Term budget)) K.Obstacle (CompiledOf K) :=
  hx.bind fun _ hu => .pure hu

/-- The elimination of a variable from both halves of an application ends. -/
private theorem ends_shared (hK : K.Closed R) (hbase : K.HasBase) {expanding : List Native}
    {left : Nat} (h : left ≤ budget) (ih : ∀ l ≤ left, EndsWithin K R limits l)
    {front last : Term} (hf : front.MadeOf K) (ha : last.MadeOf K) :
    Ends (do
      let (v₁, front) ← close R v front
      let front ← eliminate R limits expanding left v₁ front
      let (v₂, last) ← close R v last
      let last ← eliminate R limits expanding front.left v₂ last
      return (⟨← apply R (native .S) [front.value, last.value], last.left,
        Nat.le_trans last.left_le (Nat.le_trans front.left_le h)⟩ : Compiled Term budget))
      K.Obstacle (CompiledOf K) := by
  apply (ends_close hK v ⟨hf, Nat.le_refl _⟩).bind
  rintro ⟨v₁, f⟩ hf
  dsimp only at hf ⊢
  rw [← compile_lam]
  apply (ih left (Nat.le_refl left) expanding (lam v₁ f) hf.1).bind
  intro f' hf'
  apply (ends_close hK v ⟨ha, Nat.le_refl _⟩).bind
  rintro ⟨v₂, a⟩ ha
  dsimp only at ha ⊢
  rw [← compile_lam]
  apply (ih f'.left f'.left_le expanding (lam v₂ a) ha.1).bind
  intro a' ha'
  exact ends_rule _ (ends_apply_madeOf (t := native .S) hK (hbase .S rfl)
    (.cons hf' (.cons ha' .nil)))

/-- The elimination of a variable from a body ends, if the compilation of the body does and so does
every compilation within less. -/
private theorem ends_eliminate (hK : K.Closed R) (hbase : K.HasBase) {expanding : List Native}
    (ih : ∀ l < budget, EndsWithin K R limits l) {body : Term}
    (hbody : Ends (compile R limits expanding budget body) K.Obstacle (CompiledOf K)) :
    Ends (eliminate R limits expanding budget v body) K.Obstacle (CompiledOf K) := by
  have constant {u : Term} (hu : u.MadeOf K) :
      Ends (apply R (native .K) [u]) K.Obstacle (MadeOf K) :=
    ends_apply_madeOf (t := native .K) hK (hbase .K rfl) (.cons hu .nil)
  unfold eliminate
  apply hbody.bind
  intro c hc
  split
  · exact ends_rule _ (ends_abstract_madeOf hK v hc)
  · next left hleft =>
    have hl : left < budget := by
      have := c.left_le
      omega
    dsimp only
    split
    · next w hw =>
      split
      · exact .pure (hbase .I rfl)
      · exact ends_rule _ (constant hc)
    · next n hd as happ =>
      have parts : (app n hd as).MadeOf K := happ ▸ hc
      apply (ends_mentions hc v).bind
      intro b _
      split
      · exact ends_rule _ (constant hc)
      · apply (ends_split hK parts.2.1 parts.2.2).bind
        rintro ⟨front, last⟩ ⟨hf, ha⟩
        dsimp only at hf ha ⊢
        apply (ends_endsIn hf v last).bind
        intro b _
        split
        · exact (ih left hl expanding front hf).bind fun _ hd => .pure hd
        · exact ends_shared hK hbase (Nat.le_of_lt hl)
            (fun l h => ih l (Nat.lt_of_le_of_lt h hl)) hf ha
    · next rest hvar happ =>
      apply (ends_mentions hc v).bind
      intro b _
      split
      · exact ends_rule _ (constant hc)
      · exact ends_rule _ (ends_abstract_madeOf hK v hc)

mutual

/-- Compilation within a budget ends, if every compilation within less does. -/
private theorem ends_compile {budget : Nat} (hK : K.Closed R) (hbase : K.HasBase)
    (hl : limits.Numeric) (ih : ∀ l < budget, EndsWithin K R limits l) (expanding : List Native) :
    ∀ {t : Term}, t.MadeOf K →
      Ends (compile R limits expanding budget t) K.Obstacle (CompiledOf K)
  | var v, ht => by
    unfold compile
    exact .pure ht
  | foreign _, ht => ht.elim
  | native c, ht => by
    unfold compile
    split
    · exact .pure ht
    · split
      · exact .pure ht
      · next left =>
        apply (ends_canonical hK hl ht).bind
        intro o ho
        cases o with
        | none => exact .pure ht
        | some form =>
          apply (ih left (Nat.lt_succ_self left) (c :: expanding) form (ho form rfl)).bind
          intro d hd
          exact .pure hd
  | named info d, ht => by
    unfold compile
    exact ends_compile hK hbase hl ih expanding ht.2
  | lam v b, ht => by
    rw [compile_lam]
    exact ends_eliminate hK hbase ih (ends_compile hK hbase hl ih expanding (t := b) ht)
  | app n h as, ht => by
    unfold compile
    split
    · exact .pure ht
    · apply (ends_compile hK hbase hl ih expanding ht.2.1).bind
      intro h' hh
      apply (ends_compileAll hK hbase hl ih expanding h'.left_le ht.2.2).bind
      intro as' has
      exact ends_rule _ (ends_apply_madeOf hK hh has)

/-- Compilation of some terms ends within no more than a budget, if every compilation within less
than the budget does. -/
private theorem ends_compileAll {budget : Nat} (hK : K.Closed R) (hbase : K.HasBase)
    (hl : limits.Numeric) (ih : ∀ l < budget, EndsWithin K R limits l) (expanding : List Native) :
    ∀ {ts : List Term} {b : Nat}, b ≤ budget → MadeOfAll K ts →
      Ends (compileAll R limits expanding b ts) K.Obstacle fun c => MadeOfAll K c.value
  | [], b, _, _ => by
    unfold compileAll
    exact .pure .nil
  | t :: ts, b, hb, hts => by
    have first : Ends (compile R limits expanding b t) K.Obstacle (CompiledOf K) := by
      rcases Nat.lt_or_eq_of_le hb with hlt | rfl
      · exact ih b hlt expanding t hts.1
      · exact ends_compile hK hbase hl ih expanding hts.1
    unfold compileAll
    apply first.bind
    intro t' ht
    apply (ends_compileAll hK hbase hl ih expanding (Nat.le_trans t'.left_le hb) hts.2).bind
    intro ts' hts
    exact .pure (.cons ht hts)

end

/-- Compilation ends within every budget. -/
theorem endsWithin (hK : K.Closed R) (hbase : K.HasBase) (hl : limits.Numeric) (budget : Nat) :
    EndsWithin K R limits budget := by
  induction budget using Nat.strong_induction_on with
  | _ budget ih =>
    intro expanding t ht
    exact ends_compile hK hbase hl ih expanding ht

/-- The bracket form of a term is found, with any number of eliminations allowed. -/
theorem ends_bracketForm (hK : K.Closed R) (hbase : K.HasBase) (hl : limits.Numeric)
    {maxSteps : Amount} {n : Int} (hn : maxSteps.goal? = some n) {t : Term} (ht : t.MadeOf K) :
    Ends (bracketForm R limits maxSteps t) K.Obstacle (MadeOf K) := by
  have goal : Engine.goal maxSteps = pure n := by
    unfold Engine.goal
    rw [hn]
  have compiled (m : Int) : Ends (do
      let out ← compile R limits [] m.toNat t
      return (out.value, m.toNat - out.left)) K.Obstacle fun p => p.1.MadeOf K :=
    (endsWithin hK hbase hl m.toNat [] t ht).bind fun _ h => .pure h
  unfold bracketForm compileWithin
  rw [goal]
  apply Ends.bind (P := fun p => p.1.MadeOf K)
  · split
    · rw [pure_bind]
      exact compiled n
    · rw [pure_bind]
      exact compiled 0
  · exact fun _ h => .pure h

end Term

end Combinatory
