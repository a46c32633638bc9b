import Combinatory.Proofs.Combination.Bracket
import Combinatory.Proofs.Meaning.Bracket
import Combinatory.Proofs.Tower

/-!
# Elimination of variables

A combination of `S`, `K` and `I` is left alone by compilation and costs nothing. So when the body
of a lambda compiles to one and enough is left of the budget, the elimination of its variable gives
the abstraction of the combination, at the cost of the eliminations that this takes
(`yields_eliminate`).
-/

namespace Combinatory

open Engine (Yields)
open Function (update)

namespace Term

variable {R : Rules} {limits : Budget} {expanding : List Native} {budget : Nat} {s : Store}

/-- What a compilation gives: a combination, and what is left of the budget. -/
structure Leaves {budget : Nat} (c : Combination) (left : Nat) (o : Compiled Term budget) :
    Prop where
  forms : o.value.Forms c
  left : o.left = left

/-- Whether all combinators of a combination are left alone by compilation. -/
abbrev IsBasic (c : Combination) : Prop := c.Uses fun n => n.isBase = true

/-! ### What is left alone -/

mutual

/-- A combination of basic combinators is compiled to itself at no cost. -/
theorem yields_compile_basic : ∀ (t : Term) (budget : Nat), t.IsCombination →
    IsBasic t.combination → ∀ s : Store,
      Yields (compile R limits expanding budget t) s fun o _ => Leaves t.combination budget o
  | var v, budget, ht, _, s => by
    unfold compile
    exact .pure ⟨.self ht, rfl⟩
  | native c, budget, ht, hc, s => by
    have kept : (c.isBase || expanding.contains c) = true := by
      rw [show c.isBase = true from hc, Bool.true_or]
    unfold compile
    rw [if_pos kept]
    exact .pure ⟨.self ht, rfl⟩
  | app n h as, budget, ⟨hh, hne, has⟩, hbasic, s => by
    obtain ⟨hhead, hargs⟩ := Combination.uses_apps.mp hbasic
    unfold compile
    split
    · exact .pure ⟨.self ⟨hh, hne, has⟩, rfl⟩
    · apply (yields_compile_basic h budget hh.isCombination hhead s).bind
      rintro h' s₁ - ⟨hform, hleft⟩
      apply (yields_compileAll_basic as h'.left has hargs s₁).bind
      rintro as' s₂ - ⟨hforms, hleft'⟩
      apply (hform.apply R hforms s₂).bind
      intro u s₃ _ hu
      exact .pure ⟨hu, hleft'.trans hleft⟩
  | foreign _, _, ht, _, _ => ht.elim
  | named _ _, _, ht, _, _ => ht.elim
  | lam _ _, _, ht, _, _ => ht.elim

theorem yields_compileAll_basic : ∀ (ts : List Term) (budget : Nat), AreCombinations ts →
    (∀ c ∈ combinations ts, IsBasic c) → ∀ s : Store,
      Yields (compileAll R limits expanding budget ts) s fun o _ =>
        List.Forall₂ Forms o.value (combinations ts) ∧ o.left = budget
  | [], budget, _, _, s => by
    unfold compileAll
    exact .pure ⟨.nil, rfl⟩
  | t :: ts, budget, ⟨ht, hts⟩, hbasic, s => by
    obtain ⟨hfirst, hrest⟩ := List.forall_mem_cons.mp hbasic
    unfold compileAll
    apply (yields_compile_basic t budget ht hfirst s).bind
    rintro t' s₁ - ⟨hform, hleft⟩
    apply (yields_compileAll_basic ts t'.left hts hrest s₁).bind
    rintro ts' s₂ - ⟨hforms, hleft'⟩
    exact .pure ⟨.cons hform hforms, hleft'.trans hleft⟩

end

/-- What forms a combination of basic combinators is compiled to it at no cost. -/
theorem Forms.compile {t : Term} {c : Combination} (ht : t.Forms c) (hc : IsBasic c)
    (s : Store) : Yields (t.compile R limits expanding budget) s fun o _ => Leaves c budget o := by
  obtain ⟨ht, rfl⟩ := ht
  exact yields_compile_basic t budget ht hc s

/-! ### The rules -/

/-- An application of a combination has two halves. -/
theorem yields_split {n : Nat} {h : Term} {as : List Term} {f a : Combination}
    (ht : (app n h as).Forms (.app f a)) (s : Store) :
    Yields (split R h as) s fun q _ => q.1.Forms f ∧ q.2.Forms a := by
  obtain ⟨⟨hh, hne, has⟩, hform⟩ := ht
  unfold split
  split
  · next last hlast =>
    obtain ⟨bs, rfl⟩ := List.getLast?_eq_some_iff.mp hlast
    rw [areCombinations_iff, List.forall_mem_append, List.forall_mem_singleton] at has
    rw [combination, combinations_eq_map, List.map_append, List.map_singleton,
      Combination.apps_concat, ← combinations_eq_map] at hform
    injection hform with hf ha
    rw [List.dropLast_concat]
    apply (yields_apply R hh.isCombination (areCombinations_iff.mpr has.1) s).bind
    intro front s₁ _ hfront
    exact .pure ⟨hf ▸ hfront, has.2, ha⟩
  · next hnone => exact absurd (List.getLast?_eq_none_iff.mp hnone) hne

/-- A combination that is a variable is given by the variable. -/
theorem Forms.eq_var {t : Term} {v : Variable} (ht : t.Forms (.var v)) : t = var v :=
  (IsAtom.eq_of_combination (t := var v) trivial ht.isCombination ht.combination.symm).symm

/-- An application forms an application. -/
theorem Forms.exists_app {n : Nat} {h : Term} {as : List Term} {c : Combination}
    (ht : (app n h as).Forms c) : ∃ f a, c = .app f a := by
  have hne : as ≠ [] := ht.isCombination.2.1
  have hform := ht.combination
  rw [Term.combination, combinations_eq_map, ← List.dropLast_concat_getLast hne, List.map_append,
    List.map_singleton, Combination.apps_concat] at hform
  exact ⟨_, _, hform.symm⟩

/-- What is neither a variable nor an application forms a combinator. -/
theorem Forms.exists_native {t : Term} {c : Combination} (ht : t.Forms c)
    (hvar : ∀ w, t = var w → False) (happ : ∀ n h as, t = app n h as → False) :
    ∃ d, c = .native d := by
  obtain ⟨ht, rfl⟩ := ht
  cases t with
  | var w => exact (hvar w rfl).elim
  | native d => exact ⟨d, rfl⟩
  | app n h as => exact (happ n h as rfl).elim
  | _ => exact ht.elim

/-- Whether the eta rule applies is decided. -/
theorem endsIn_eq {front last : Term} {f a : Combination} (hf : front.Forms f)
    (ha : last.Forms a) (v : Variable) :
    endsIn v front last = pure (decide (a = .var v ∧ ¬ f.Mentions v)) := by
  by_cases h : a = .var v
  · rw [h] at ha
    rw [ha.eq_var, endsIn, if_pos rfl, hf.mentions_eq, pure_bind, h]
    simp
  · have other : decide (a = .var v ∧ ¬ f.Mentions v) = false := by simp [h]
    rw [other]
    unfold endsIn
    split
    · next w =>
      rw [if_neg]
      rintro rfl
      exact h ha.combination.symm
    · rfl

/-- A body that does not mention the variable is made constant. -/
theorem yields_constant {left : Nat} (hle : left ≤ budget) {t : Term} {c : Combination}
    (ht : t.Forms c) (s : Store) :
    Yields (do return (⟨← apply R (native .K) [t], left, hle⟩ : Compiled Term budget)) s
      fun o _ => Leaves (.app (.native .K) c) left o := by
  have hK : (native .K).Forms (.native .K) := .self rfl
  apply (hK.apply R (.cons ht .nil) s).bind
  intro u s₁ _ hu
  exact .pure ⟨hu, rfl⟩

/-- Renaming a variable does not change what is abstracted over it. -/
private theorem bracket_fresh {v w : Variable} {c : Combination} (hw : ¬ c.Mentions w) :
    Combination.bracket w (c.subst (update .var v (.var w))) = Combination.bracket v c ∧
      Combination.eliminations w (c.subst (update .var v (.var w))) =
        Combination.eliminations v c := by
  have named : update Combination.var v (.var w) = Combination.var ∘ update id v w := by
    rw [Function.comp_update, Function.comp_id]
  have self : update id v w v = w := Function.update_self ..
  have separates : Combination.Separates (update id v w) v c := by
    intro x hx hrenamed
    by_contra hxv
    rw [self, Function.update_of_ne hxv, id] at hrenamed
    exact hw (hrenamed ▸ hx)
  obtain ⟨hbracket, hcount⟩ := Combination.rename_bracket separates
  rw [self] at hbracket hcount
  rw [named]
  refine ⟨hbracket.symm.trans (Combination.rename_eq_self fun x hx => ?_), hcount⟩
  exact Function.update_of_ne (Combination.mentions_bracket.mp hx).2 ..

/-- What a basic combination is under another name for the variable that is abstracted over. -/
structure Renamed (v : Variable) (c : Combination) (w : Variable) (d : Combination) : Prop where
  basic : IsBasic d
  bracket : Combination.bracket w d = Combination.bracket v c
  eliminations : Combination.eliminations w d = Combination.eliminations v c

/-- A body is closed over the variable under another name. -/
theorem yields_close_basic {v : Variable} {body : Term} {c : Combination} (hbody : body.Forms c)
    (hc : IsBasic c) (hm : ∀ x, c.Mentions x → s.Minted x) :
    Yields (close R v body) s fun q s' => ∃ d, q.2.Forms d ∧ Renamed v c q.1 d ∧
      ∀ x, d.Mentions x → s'.Minted x := by
  apply (yields_close_combination hbody hm).imp
  rintro ⟨w, body₁⟩ s₁ hs₁ ⟨hfresh, hw, hform⟩
  obtain ⟨hbracket, hcount⟩ := bracket_fresh (v := v) fun hmem => hfresh (hm w hmem)
  refine ⟨_, hform, ⟨hc.subst fun x _ => ?_, hbracket, hcount⟩, fun x hx => ?_⟩
  · by_cases hx : x = v
    · rw [hx, Function.update_self]
      trivial
    · rw [Function.update_of_ne hx]
      trivial
  · obtain ⟨y, hy, hx⟩ := Combination.mentions_subst.mp hx
    by_cases hyv : y = v
    · rw [hyv, Function.update_self] at hx
      exact (show x = w from hx) ▸ hw
    · rw [Function.update_of_ne hyv] at hx
      exact (show x = y from hx) ▸ (hm y hy).mono hs₁

/-- Whether variables are eliminated from combinations of basic combinators by a budget that is
enough for it. -/
def Eliminates (R : Rules) (limits : Budget) (expanding : List Native) (budget : Nat) : Prop :=
  ∀ (s : Store) (v : Variable) (body : Term) (c : Combination), body.Forms c → IsBasic c →
    (∀ w, c.Mentions w → s.Minted w) → Combination.eliminations v c ≤ budget →
      Yields (eliminate R limits expanding budget v body) s fun o _ =>
        Leaves (Combination.bracket v c) (budget - Combination.eliminations v c) o

/-- A variable eliminated from both halves of an application is shared by `S`. -/
private theorem yields_shared {rest : Nat} (hle : rest ≤ budget)
    (h : ∀ m ≤ rest, Eliminates R limits expanding m) {v : Variable} {front last : Term}
    {f a : Combination} (hf : front.Forms f) (ha : last.Forms a) (hc : IsBasic (.app f a))
    (hm : ∀ w, (Combination.app f a).Mentions w → s.Minted w)
    (enough : Combination.eliminations v f + Combination.eliminations v a ≤ rest) :
    Yields (do
      let (v₁, front) ← close R v front
      let front ← eliminate R limits expanding rest v₁ front
      let (v₂, last) ← close R v last
      let last ← eliminate R limits expanding front.left v₂ last
      return (⟨← apply R (native .S) [front.value, last.value], last.left,
        Nat.le_trans last.left_le (Nat.le_trans front.left_le hle)⟩ : Compiled Term budget)) s
      fun o _ => Leaves
        (.app (.app (.native .S) (Combination.bracket v f)) (Combination.bracket v a))
        (rest - (Combination.eliminations v f + Combination.eliminations v a)) o := by
  apply (yields_close_basic hf hc.1 fun w hw => hm w (.inl hw)).bind
  rintro ⟨v₁, front₁⟩ s₁ hs₁ ⟨d, hfront₁, hd, minted₁⟩
  apply (h rest (Nat.le_refl rest) s₁ v₁ front₁ d hfront₁ hd.basic minted₁
    (by rw [hd.eliminations]; omega)).bind
  rw [hd.bracket, hd.eliminations]
  rintro front₂ s₂ hs₂ ⟨hfront₂, hleft₂⟩
  have hma : ∀ w, a.Mentions w → s₂.Minted w := fun w hw =>
    (hm w (.inr hw)).mono (Store.le_trans hs₁ hs₂)
  apply (yields_close_basic ha hc.2 hma).bind
  rintro ⟨v₂, last₁⟩ s₃ - ⟨e, hlast₁, he, minted₃⟩
  apply (h front₂.left (by omega) s₃ v₂ last₁ e hlast₁ he.basic minted₃
    (by rw [he.eliminations]; omega)).bind
  rw [he.bracket, he.eliminations]
  rintro last₂ s₄ - ⟨hlast₂, hleft₄⟩
  have hS : (native .S).Forms (.native .S) := .self rfl
  apply (hS.apply R (.cons hfront₂ (.cons hlast₂ .nil)) s₄).bind
  intro u s₅ _ hu
  refine .pure ⟨hu, ?_⟩
  dsimp only
  omega

/-- The elimination of a variable from a body that compiles to a basic combination gives the
abstraction of the combination. -/
theorem yields_eliminate {left budget : Nat} {v : Variable} {body : Term} {c : Combination}
    (hbody : Yields (compile R limits expanding budget body) s fun o _ => Leaves c left o)
    (hc : IsBasic c) (hm : ∀ w, c.Mentions w → s.Minted w)
    (enough : Combination.eliminations v c ≤ left) :
    Yields (eliminate R limits expanding budget v body) s fun o _ =>
      Leaves (Combination.bracket v c) (left - Combination.eliminations v c) o := by
  -- every rule spends one elimination before it calls itself
  induction left using Nat.strongRecOn generalizing budget v body c s with
  | ind left ih =>
  have smaller (m : Nat) (hm : m < left) : Eliminates R limits expanding m :=
    fun s v body c hform hc hminted henough => ih m hm (hform.compile hc s) hc hminted henough
  have positive := Combination.eliminations_pos v c
  unfold eliminate
  apply hbody.bind
  rintro o s₁ hs ⟨hform, hleft⟩
  split
  · next hnone => omega
  · next rest hrest =>
    have hl : rest < left := by omega
    dsimp only
    split
    · next w hw =>
      rw [hw] at hform
      obtain rfl : Combination.var w = c := hform.combination
      have cost : left - Combination.eliminations v (.var w) = rest := by
        rw [Combination.eliminations]
        omega
      rw [cost, Combination.bracket]
      split
      · exact .pure ⟨.self rfl, rfl⟩
      · rw [hw]
        exact yields_constant _ hform s₁
    · next n hd as happ =>
      -- the engine asks the symbols of the term what `bracket` asks of the combination
      rw [happ] at hform
      obtain ⟨f, a, rfl⟩ := hform.exists_app
      have minted : ∀ w, (Combination.app f a).Mentions w → s₁.Minted w := fun w hw =>
        (hm w hw).mono hs
      rw [happ, hform.mentions_eq v, pure_bind, Combination.bracket]
      rw [Combination.eliminations] at enough ⊢
      by_cases hmem : (Combination.app f a).Mentions v
      · simp only [hmem, not_true, decide_true, Bool.not_true, Bool.false_eq_true, if_false]
          at enough ⊢
        apply (yields_split hform s₁).bind
        rintro ⟨front, last⟩ s₂ hs₂ ⟨hfront, hlast⟩
        dsimp only at hfront hlast ⊢
        rw [endsIn_eq hfront hlast v, pure_bind]
        by_cases heta : a = .var v ∧ ¬ f.Mentions v
        · rw [decide_eq_true heta, if_pos rfl, if_pos heta, if_pos heta]
          apply (hfront.compile hc.1 s₂).bind
          rintro d s₃ - ⟨hd, hkept⟩
          exact .pure ⟨hd, hkept.trans (by omega)⟩
        · rw [if_neg heta] at enough
          rw [decide_eq_false heta, if_neg Bool.false_ne_true, if_neg heta, if_neg heta]
          have hle : rest ≤ budget := by
            have := o.left_le
            omega
          apply (yields_shared hle (fun m hm => smaller m (by omega)) hfront hlast hc
            (fun w hw => (minted w hw).mono hs₂) (by omega)).imp
          rintro d s₃ - ⟨hd, hkept⟩
          exact ⟨hd, hkept.trans (by omega)⟩
      · simp only [hmem, not_false_eq_true, decide_false, Bool.not_false, if_true]
        have cost : left - 1 = rest := by omega
        rw [cost]
        exact yields_constant _ hform s₁
    · next t hvar happ =>
      obtain ⟨d, rfl⟩ := hform.exists_native hvar happ
      rw [hform.mentions_eq v, pure_bind]
      have cost : left - Combination.eliminations v (.native d) = rest := by
        rw [Combination.eliminations]
        omega
      rw [cost]
      exact yields_constant _ hform s₁

/-! ### Towers -/

/-- What a tower is compiled to, whatever is met under way. -/
structure CompilesTo (t : Term) (c : Combination) (cost : Nat) : Prop where
  mentions : ∀ v, c.Mentions v → t.occurs v = true
  yields : ∀ (R : Rules) (limits : Budget) (expanding : List Native) {budget : Nat} {Γ : Scope}
    {s : Store}, Γ.Minted s → t.Fits Γ s → cost ≤ budget →
      Yields (compile R limits expanding budget t) s fun o _ => Leaves c (budget - cost) o

/-- A renaming that keeps distinct from a new name all variables below a lambda but its binder. -/
private theorem separates_update {π : Variable → Variable} {v w : Variable} {b : Term}
    {c : Combination} (hπ : ∀ x, (lam v b).occurs x = true → π x ≠ w)
    (hc : ∀ x, c.Mentions x → b.occurs x = true) : Combination.Separates (update π v w) v c := by
  intro x hx hrenamed
  by_contra hxv
  rw [Function.update_self, Function.update_of_ne hxv] at hrenamed
  exact hπ x (by simp [occurs, hc x hx, Ne.symm hxv]) hrenamed

/-- A tower whose combination is basic is compiled to the abstraction of what it gives on distinct
new variables, under whatever names its own variables have. -/
theorem IsTower.exists_compiled {n : Nat} {t : Term} (ht : t.IsTower n)
    (π : Variable → Variable) {vs : List Variable} (hlen : vs.length = n) (hvs : vs.Nodup)
    (hfresh : ∀ w ∈ vs, ∀ x, t.occurs x = true → π x ≠ w)
    (hbasic : IsBasic (t.applied (Combination.var ∘ π) (vs.map .var))) :
    ∃ c, c.rename π =
        Combination.bracketAll vs (t.applied (Combination.var ∘ π) (vs.map .var)) ∧
      IsBasic c ∧ CompilesTo t c
        (Combination.eliminationsAll vs (t.applied (Combination.var ∘ π) (vs.map .var))) := by
  induction n generalizing t π vs with
  | zero =>
    obtain rfl := List.length_eq_zero_iff.mp hlen
    have given : t.applied (Combination.var ∘ π) [] = t.combination.rename π :=
      IsCombination.applied_eq ht _ _
    rw [List.map_nil, given] at hbasic ⊢
    have basic : IsBasic t.combination := hbasic.of_subst
    refine ⟨t.combination, rfl, basic, fun v hv => (occurs_iff_mentions ht).mpr hv, ?_⟩
    intro R limits expanding budget Γ s _ _ _
    exact yields_compile_basic t budget ht basic s
  | succ n ih =>
    obtain ⟨v, b, rfl, hb⟩ := ht.exists_lam
    obtain ⟨w, ws, rfl⟩ := List.exists_cons_of_length_eq_add_one hlen
    obtain ⟨hw, hws⟩ := List.nodup_cons.mp hvs
    have hπ : ∀ x, (lam v b).occurs x = true → π x ≠ w := hfresh w List.mem_cons_self
    have given : (lam v b).applied (Combination.var ∘ π) ((w :: ws).map .var) =
        b.applied (Combination.var ∘ update π v w) (ws.map .var) := by
      rw [List.map_cons, applied, Function.comp_update]
    rw [given] at hbasic ⊢
    have below : ∀ u ∈ ws, ∀ x, b.occurs x = true → update π v w x ≠ u := by
      intro u hu x hx
      by_cases hxv : x = v
      · rw [hxv, Function.update_self]
        exact fun heq => hw (heq ▸ hu)
      · rw [Function.update_of_ne hxv]
        exact hfresh u (List.mem_cons_of_mem w hu) x (by simp [occurs, hx, Ne.symm hxv])
    obtain ⟨c, hc, hcbasic, hcomp⟩ := ih hb _ (Nat.succ.inj hlen) hws below hbasic
    obtain ⟨hbracket, hcount⟩ :=
      Combination.rename_bracket (separates_update hπ hcomp.mentions)
    rw [Function.update_self, hc] at hbracket hcount
    refine ⟨Combination.bracket v c, ?_, Combination.uses_bracket rfl rfl rfl hcbasic, ?_, ?_⟩
    · refine Eq.trans (Combination.rename_congr fun x hx => ?_) hbracket
      exact (Function.update_of_ne (Combination.mentions_bracket.mp hx).2 ..).symm
    · intro x hx
      obtain ⟨hx, hxv⟩ := Combination.mentions_bracket.mp hx
      simp [occurs, hcomp.mentions x hx, Ne.symm hxv]
    · intro R limits expanding budget Γ s hΓ hfits enough
      rw [Combination.eliminationsAll, hcount] at enough ⊢
      have inner : (Γ.bind v).Minted s := hΓ.bind hfits.2.1
      have minted : ∀ x, c.Mentions x → s.Minted x := fun x hx =>
        inner.visible x (hfits.2.2.visible (hcomp.mentions x hx))
      rw [compile_lam, ← Nat.sub_sub]
      exact yields_eliminate (hcomp.yields R limits expanding inner hfits.2.2 (by omega)) hcbasic
        minted (by omega)

end Term

end Combinatory
