import Combinatory.Proofs.Meaning.Bracket
import Combinatory.Proofs.Settled.Canonical

/-!
# Compilation looks at no table in effect

Compilation searches for canonical forms, abstracts and applies, so it does not depend on the table
of settled applications, and what it gives is recorded. The combinators that it brings in have to be
of the kind that the applications at hand are recorded with.
-/

namespace Combinatory

variable {ok : Native → Prop} {p p' : Twins} {R : Rules} {limits : Budget}

namespace Term

private theorem alike_mentions (p : Twins) (v : Variable) (t : Term) :
    Alike (mentions v t) (mentions v t) p fun _ _ => True := by
  unfold mentions
  apply (alike_counted p t).bind
  intro _ _ _ _
  exact .pure trivial

private theorem alike_endsIn (p : Twins) (v : Variable) (front last : Term) :
    Alike (endsIn v front last) (endsIn v front last) p fun _ _ => True := by
  unfold endsIn
  split
  · split
    · apply (alike_mentions p v front).bind
      intro _ _ _ _
      exact .pure trivial
    · exact .pure trivial
  · exact .pure trivial

private theorem records_canonical (hR : R.Steady ok p) {t : Term} (ht : t.Recorded ok p.heap) :
    RecordsAny ok (canonical R limits t) p := by
  unfold canonical
  apply (records_canonicalize hR limits false ht).bind
  intro c p₁ _ hc
  exact .pure hc

/-- Two runs of a compilation give the same recorded term. -/
abbrev RecordsCompiled (ok : Native → Prop) {budget : Nat} (x : Engine (Compiled Term budget))
    (p : Twins) : Prop :=
  Alike x x p fun c p' => c.value.Recorded ok p'.heap

/-- Whether compilation within a budget looks at no table. -/
private def RecordsWithin (R : Rules) (ok : Native → Prop) (limits : Budget) (budget : Nat) :
    Prop :=
  ∀ (expanding : List Native) (p : Twins) (t : Term), R.Steady ok p → t.Recorded ok p.heap →
    RecordsCompiled ok (t.compile R limits expanding budget) p

/-- A rule makes a compiled term of what it gives. -/
private theorem recordsCompiled_rule {x : Engine Term} {budget left : Nat} (h : left ≤ budget)
    (hx : Records ok x p) :
    RecordsCompiled ok (do return (⟨← x, left, h⟩ : Compiled Term budget)) p := by
  apply hx.bind
  intro u p₁ _ hu
  exact .pure hu

/-- The elimination of a variable from both halves of an application. -/
private theorem recordsCompiled_shared (hbase : ∀ c : Native, c.isBase = true → ok c)
    (hR : R.Steady ok p) {expanding : List Native} {budget left : Nat} (h : left ≤ budget)
    (ih : ∀ l ≤ left, RecordsWithin R ok limits l) {v : Variable} {front last : Term}
    (hf : front.Recorded ok p.heap) (hl : last.Recorded ok p.heap) :
    RecordsCompiled ok (do
      let (v₁, front) ← close R v front
      let front ← eliminate R limits expanding left v₁ front
      let (v₂, last) ← close R v last
      let last ← eliminate R limits expanding front.left v₂ last
      return (⟨← apply R (.native .S) [front.value, last.value], last.left,
        Nat.le_trans last.left_le (Nat.le_trans front.left_le h)⟩ : Compiled Term budget)) p := by
  apply (records_close hR hf).bind
  rintro ⟨v₁, f⟩ p₁ hp₁ hf
  dsimp only at hf ⊢
  rw [← compile_lam]
  apply (ih left (Nat.le_refl left) expanding p₁ (.lam v₁ f) (hR.later hp₁) hf).bind
  intro f' p₂ hp₂ hf'
  have steady := hR.later (Twins.le_trans hp₁ hp₂)
  apply (records_close steady (hl.later (Twins.le_trans hp₁ hp₂))).bind
  rintro ⟨v₂, a⟩ p₃ hp₃ ha
  dsimp only at ha ⊢
  rw [← compile_lam]
  apply (ih f'.left f'.left_le expanding p₃ (.lam v₂ a) (steady.later hp₃) ha).bind
  intro a' p₄ hp₄ ha'
  have both : RecordedAll ok p₄.heap [f'.value, a'.value] :=
    .cons (hf'.later (Twins.le_trans hp₃ hp₄)) (.cons ha' .nil)
  exact recordsCompiled_rule _
    (records_apply (steady.later (Twins.le_trans hp₃ hp₄)) (hbase .S rfl) both)

/-- The elimination of a variable from a body whose compilation looks at no table, as every
compilation within less does. -/
private theorem recordsCompiled_eliminate (hbase : ∀ c : Native, c.isBase = true → ok c)
    (hR : R.Steady ok p) {expanding : List Native} {budget : Nat} {v : Variable}
    (ih : ∀ l < budget, RecordsWithin R ok limits l) {body : Term}
    (hbody : RecordsCompiled ok (body.compile R limits expanding budget) p) :
    RecordsCompiled ok (body.eliminate R limits expanding budget v) p := by
  have constant {p' : Twins} (hp : p ≤ p') {u : Term} (hu : u.Recorded ok p'.heap) :
      Records ok (apply R (.native .K) [u]) p' :=
    records_apply (hR.later hp) (hbase .K rfl) (.cons hu .nil)
  unfold eliminate
  apply hbody.bind
  intro c p₁ hp₁ hc
  have steady := hR.later hp₁
  split
  · exact recordsCompiled_rule _ (records_abstract steady hc)
  · next left hleft =>
    have hl : left < budget := by
      have := c.left_le
      omega
    dsimp only
    split
    · split
      · exact .pure (hbase .I rfl)
      · exact recordsCompiled_rule _ (constant hp₁ hc)
    · next n hd as happ =>
      have whole : (app n hd as).Recorded ok p₁.heap := happ ▸ hc
      apply (alike_mentions p₁ v _).bind
      intro mentioned p₂ hp₂ _
      split
      · exact recordsCompiled_rule _ (constant (Twins.le_trans hp₁ hp₂) (hc.later hp₂))
      · apply (records_split (steady.later hp₂) (whole.2.1.later hp₂) (whole.2.2.later hp₂)).bind
        rintro ⟨front, last⟩ p₃ hp₃ ⟨hf, ha⟩
        dsimp only at hf ha ⊢
        apply (alike_endsIn p₃ v front last).bind
        intro ends p₄ hp₄ _
        have steady := steady.later (Twins.le_trans hp₂ (Twins.le_trans hp₃ hp₄))
        split
        · apply (ih left hl expanding p₄ front steady (hf.later hp₄)).bind
          intro d p₅ _ hd
          exact .pure hd
        · exact recordsCompiled_shared hbase steady (Nat.le_of_lt hl)
            (fun l h => ih l (Nat.lt_of_le_of_lt h hl)) (hf.later hp₄) (ha.later hp₄)
    · apply (alike_mentions p₁ v _).bind
      intro mentioned p₂ hp₂ _
      split
      · exact recordsCompiled_rule _ (constant (Twins.le_trans hp₁ hp₂) (hc.later hp₂))
      · exact recordsCompiled_rule _ (records_abstract (steady.later hp₂) (hc.later hp₂))

mutual

private theorem recordsCompiled_step (hbase : ∀ c : Native, c.isBase = true → ok c)
    {budget : Nat} (ih : ∀ l < budget, RecordsWithin R ok limits l) (expanding : List Native) :
    ∀ (t : Term) {p : Twins}, R.Steady ok p → t.Recorded ok p.heap →
      RecordsCompiled ok (t.compile R limits expanding budget) p
  | var v, p, _, ht => by
    unfold compile
    exact .pure ht
  | foreign _, p, _, ht => by
    unfold compile
    exact .pure ht
  | native c, p, hR, ht => by
    unfold compile
    split
    · exact .pure ht
    · split
      · exact .pure ht
      · next left =>
        apply (records_canonical hR ht).bind
        intro o p₁ hp₁ ho
        cases o with
        | none => exact .pure (ht.later hp₁)
        | some form =>
          apply (ih left (Nat.lt_succ_self left) (c :: expanding) p₁ form (hR.later hp₁)
            (ho form rfl)).bind
          intro d p₂ _ hd
          exact .pure hd
  | named info d, p, hR, ht => by
    unfold compile
    exact recordsCompiled_step hbase ih expanding d hR ht
  | lam v b, p, hR, ht => by
    rw [compile_lam]
    exact recordsCompiled_eliminate hbase hR ih (recordsCompiled_step hbase ih expanding b hR ht)
  | app n h as, p, hR, ht => by
    unfold compile
    split
    · exact .pure ht
    · apply (recordsCompiled_step hbase ih expanding h hR ht.2.1).bind
      intro h' p₁ hp₁ hh
      apply (recordsCompiled_steps hbase ih expanding as h'.left_le (hR.later hp₁)
        (ht.2.2.later hp₁)).bind
      intro as' p₂ hp₂ has
      exact recordsCompiled_rule _
        (records_apply (hR.later (Twins.le_trans hp₁ hp₂)) (hh.later hp₂) has)

private theorem recordsCompiled_steps (hbase : ∀ c : Native, c.isBase = true → ok c)
    {budget : Nat} (ih : ∀ l < budget, RecordsWithin R ok limits l) (expanding : List Native) :
    ∀ (ts : List Term) {b : Nat} {p : Twins}, b ≤ budget → R.Steady ok p →
      RecordedAll ok p.heap ts →
        Alike (compileAll R limits expanding b ts) (compileAll R limits expanding b ts) p
          fun c p' => RecordedAll ok p'.heap c.value
  | [], b, p, _, _, _ => by
    unfold compileAll
    exact .pure .nil
  | t :: ts, b, p, hb, hR, hts => by
    have first : RecordsCompiled ok (t.compile R limits expanding b) p := by
      rcases Nat.lt_or_eq_of_le hb with hlt | rfl
      · exact ih b hlt expanding p t hR hts.1
      · exact recordsCompiled_step hbase ih expanding t hR hts.1
    unfold compileAll
    apply first.bind
    intro t' p₁ hp₁ ht'
    apply (recordsCompiled_steps hbase ih expanding ts (Nat.le_trans t'.left_le hb)
      (hR.later hp₁) (hts.2.later hp₁)).bind
    intro ts' p₂ hp₂ hts'
    exact .pure (.cons (ht'.later hp₂) hts')

end

/-- Compilation looks at no table, within every budget. -/
theorem records_compile (hbase : ∀ c : Native, c.isBase = true → ok c) (expanding : List Native)
    (budget : Nat) (hR : R.Steady ok p) {t : Term} (ht : t.Recorded ok p.heap) :
    RecordsCompiled ok (t.compile R limits expanding budget) p := by
  induction budget using Nat.strong_induction_on generalizing expanding t p with
  | _ budget ih =>
    exact recordsCompiled_step hbase
      (fun l hl expanding p t hR ht => ih l hl expanding hR ht) expanding t hR ht

private theorem alike_goal (p : Twins) (a : Amount) :
    Alike (Engine.goal a) (Engine.goal a) p fun _ _ => True := by
  unfold Engine.goal
  split
  · exact .pure trivial
  · exact .throw

theorem records_bracketForm (hbase : ∀ c : Native, c.isBase = true → ok c) (hR : R.Steady ok p)
    (limits : Budget) (maxSteps : Amount) {t : Term} (ht : t.Recorded ok p.heap) :
    Records ok (t.bracketForm R limits maxSteps) p := by
  have compiled {p' : Twins} (hp : p ≤ p') (n : Nat) : Alike
      (do let out ← t.compile R limits [] n; return (out.value, n - out.left))
      (do let out ← t.compile R limits [] n; return (out.value, n - out.left)) p'
      fun q p'' => q.1.Recorded ok p''.heap := by
    apply (records_compile hbase [] n (hR.later hp) (ht.later hp)).bind
    intro out p₁ _ hout
    exact .pure hout
  have within : Alike (t.compileWithin R limits maxSteps) (t.compileWithin R limits maxSteps) p
      fun q p' => q.1.Recorded ok p'.heap := by
    unfold compileWithin
    dsimp only
    split
    · apply (alike_goal p maxSteps).bind
      intro n p₁ hp₁ _
      exact compiled hp₁ n.toNat
    · exact compiled p.le_refl 0
  unfold bracketForm
  apply within.bind
  intro q p₁ _ hq
  exact .pure hq

end Term

end Combinatory
