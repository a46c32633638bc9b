import Combinatory.Bracket
import Combinatory.Proofs.Meaning.Canonical

/-!
# Bracket abstraction keeps the meaning

Each of the four rules gives what the abstraction means, the rules for `K` and for `v` at the end
only where the variable does not occur. Whether it occurs is asked of the symbols, and those of a
terminal name hide its variables. But names are gone from a compiled term unless the budget is spent
(`Scope.spent`), and when it is spent no rule is used any more. So every budget is sound.
-/

namespace Combinatory

open LambdaTerm (Converts)
open Engine (Ensures)

variable {η : Prop} {Γ : Scope} {s : Store}

/-! ### The rules -/

namespace Native

open LambdaTerm (lam app free)

/-- The identity is the abstraction of a variable over itself. -/
theorem reading_I_eq_abs (v : Variable) : I.reading = (free v).abs v := by
  rw [reading, LambdaTerm.abs, LambdaTerm.subst]
  exact congrArg lam (if_pos rfl).symm

/-- A constant function is an abstraction over a variable that does not occur. -/
theorem converts_K_abs {v : Variable} {t : LambdaTerm} (h : ¬ t.Mentions v) :
    Converts η (K.reading.apps [t]) (t.abs v) := by
  rw [LambdaTerm.abs, LambdaTerm.subst_capture_eq_shift h]
  exact .beta _ _

/-- Two abstractions under `S` are the abstraction of an application. -/
theorem converts_S_abs (v : Variable) (f a : LambdaTerm) :
    Converts η (S.reading.apps [f.abs v, a.abs v]) ((app f a).abs v) := by
  have shared : Converts η (S.reading.apps [f.abs v, a.abs v])
      (lam (app (app (f.abs v).shift (.bound 0)) (app (a.abs v).shift (.bound 0)))) :=
    .beta₂ _ _ _
  exact shared.trans ((Converts.shift_lam_app _).app (.shift_lam_app _)).lam

end Native

/-! ### Occurrences among the symbols -/

namespace Term

mutual

/-- The symbols of a term come before the others. -/
theorem symbolsUnder_eq_append (bound : List Variable) : ∀ (t : Term) (rest : List Symbol),
    symbolsUnder bound t rest = symbolsUnder bound t [] ++ rest
  | var v, rest => by
    rw [symbolsUnder, symbolsUnder]
    split <;> rfl
  | native c, rest => by simp [symbolsUnder]
  | foreign x, rest => by simp [symbolsUnder]
  | named info d, rest => by
    by_cases h : info.isTerminal = true
    · simp [symbolsUnder, h]
    · simp only [symbolsUnder, h]
      exact symbolsUnder_eq_append bound d rest
  | lam v b, rest => by
    rw [symbolsUnder, symbolsUnder, symbolsUnder_eq_append (v :: bound) b rest, List.cons_append]
  | app _ h as, rest => by
    rw [symbolsUnder, symbolsUnder, symbolsUnder_eq_append bound h,
      symbolsOfAll_eq_append bound as rest, symbolsUnder_eq_append bound h (symbolsOfAll _ _ []),
      List.append_assoc]

/-- The symbols of some terms come before the others. -/
theorem symbolsOfAll_eq_append (bound : List Variable) : ∀ (ts : List Term) (rest : List Symbol),
    symbolsOfAll bound ts rest = symbolsOfAll bound ts [] ++ rest
  | [], rest => rfl
  | t :: ts, rest => by
    rw [symbolsOfAll, symbolsOfAll, symbolsUnder_eq_append bound t,
      symbolsOfAll_eq_append bound ts rest, symbolsUnder_eq_append bound t (symbolsOfAll _ _ []),
      List.append_assoc]

end

mutual

/-- Where there are no names, every variable that occurs is a symbol. -/
theorem mem_symbolsUnder {v : Variable} : ∀ {t : Term} {Γ : Scope} {bound : List Variable},
    ¬ Γ.names → t.Fits Γ s → v ∉ bound → t.occurs v = true →
      Symbol.var v ∈ symbolsUnder bound t []
  | var w, _, bound, _, _, hv, h => by
    rw [occurs, decide_eq_true_iff] at h
    subst h
    have absent : ¬ bound.contains w = true := fun hc => hv (List.contains_iff_mem.mp hc)
    rw [symbolsUnder, if_neg absent]
    exact List.mem_singleton_self _
  | native _, _, _, _, _, _, h => by
    rw [occurs] at h
    cases h
  | foreign _, _, _, _, ht, _, _ => ht.elim
  | named _ _, _, _, hn, ht, _, _ => absurd ht.1 hn
  | lam w b, Γ, bound, hn, ht, hv, h => by
    rw [occurs, Bool.and_eq_true, decide_eq_true_iff] at h
    have hvw : v ∉ w :: bound := by
      rintro (_ | ⟨_, hb⟩)
      · exact h.1 rfl
      · exact hv hb
    exact List.mem_cons_of_mem _ (mem_symbolsUnder (Γ := Γ.bind w) hn ht.2.2 hvw h.2)
  | app _ hd as, _, bound, hn, ht, hv, h => by
    rw [symbolsUnder, symbolsUnder_eq_append, List.mem_append]
    rw [occurs, Bool.or_eq_true] at h
    rcases h with h | h
    · exact Or.inl (mem_symbolsUnder hn ht.2.1 hv h)
    · exact Or.inr (mem_symbolsOfAll hn ht.2.2 hv h)

/-- Where there are no names, every variable that occurs in one of some terms is a symbol. -/
theorem mem_symbolsOfAll {v : Variable} : ∀ {ts : List Term} {Γ : Scope} {bound : List Variable},
    ¬ Γ.names → FitsAll Γ s ts → v ∉ bound → occursAny v ts = true →
      Symbol.var v ∈ symbolsOfAll bound ts []
  | [], _, _, _, _, _, h => by
    rw [occursAny] at h
    cases h
  | _ :: _, _, bound, hn, hts, hv, h => by
    rw [symbolsOfAll, symbolsUnder_eq_append, List.mem_append]
    rw [occursAny, Bool.or_eq_true] at h
    rcases h with h | h
    · exact Or.inl (mem_symbolsUnder hn hts.1 hv h)
    · exact Or.inr (mem_symbolsOfAll hn hts.2 hv h)

end

/-- Where there are no names, a variable that is said not to be mentioned does not occur. -/
theorem ensures_mentions (hn : ¬ Γ.names) {t : Term} (ht : t.Fits Γ s) (v : Variable) :
    Ensures (mentions v t) s fun b _ => b = false → ¬ t.occurs v = true := by
  have symbol (ho : t.occurs v = true) : t.symbols.contains (.var v) = true :=
    List.contains_iff_mem.mpr (mem_symbolsUnder hn ht List.not_mem_nil ho)
  unfold mentions
  apply (ensures_counted t s).bind
  rintro _ s₁ _ rfl
  refine .pure ?_
  intro h ho
  rw [symbol ho] at h
  cases h

/-- Where there are no names, a body that is said to end in a variable ends in it, and the front
part does not mention it. -/
private theorem ensures_endsIn (hn : ¬ Γ.names) {front : Term} (hf : front.Fits Γ s) (v : Variable)
    (last : Term) :
    Ensures (endsIn v front last) s fun b _ =>
      b = true → last = var v ∧ ¬ front.occurs v = true := by
  unfold endsIn
  split
  · next w =>
    split
    · next h =>
      apply (ensures_mentions hn hf v).bind
      intro b s₁ _ hb
      refine .pure ?_
      intro ht
      rw [Bool.not_eq_true'] at ht
      exact ⟨by rw [h], hb ht⟩
    · exact .pure fun h => nomatch h
  · exact .pure fun h => nomatch h

end Term

/-! ### Budgets -/

namespace Scope

/-- The scope without names. -/
def nameless (Γ : Scope) : Scope := { Γ with names := False }

/-- The scope of compiled terms: names are left only when the budget is spent. -/
def spent (Γ : Scope) (left : Nat) : Scope := { Γ with names := Γ.names ∧ left = 0 }

theorem Sealed.nameless (hΓ : Γ.Sealed s) : Γ.nameless.Sealed s := ⟨hΓ.visible, hΓ.taken⟩

private theorem nameless_below_spent (Γ : Scope) (left : Nat) : Γ.nameless.Below (Γ.spent left) :=
  ⟨fun _ h => h, fun _ h => h, False.elim⟩

private theorem below_spent_zero (Γ : Scope) : Γ.Below (Γ.spent 0) :=
  ⟨fun _ h => h, fun _ h => h, fun h => ⟨h, rfl⟩⟩

private theorem spent_below (Γ : Scope) (left : Nat) : (Γ.spent left).Below Γ :=
  ⟨fun _ h => h, fun _ h => h, And.left⟩

/-- As long as something is left there are no names. -/
private theorem spent_succ_below (Γ : Scope) (left : Nat) : (Γ.spent (left + 1)).Below Γ.nameless :=
  ⟨fun _ h => h, fun _ h => h, fun h => nomatch h.2⟩

/-- Spending more allows more. -/
private theorem spent_below_spent (Γ : Scope) {less more : Nat} (h : less ≤ more) :
    (Γ.spent more).Below (Γ.spent less) :=
  ⟨fun _ h => h, fun _ h => h, fun hn => ⟨hn.1, Nat.le_zero.mp (hn.2 ▸ h)⟩⟩

end Scope

/-- A compiled term means a lambda term, and has names only if its budget is spent. -/
def Compiles (η : Prop) (Γ : Scope) (T : LambdaTerm) {budget : Nat} (c : Compiled Term budget)
    (s : Store) : Prop :=
  Means η (Γ.spent c.left) s c.value T

/-- Compiled terms mean lambda terms, and have names only if their budget is spent. -/
def CompilesAll (η : Prop) (Γ : Scope) (Ts : List LambdaTerm) {budget : Nat}
    (c : Compiled (List Term) budget) (s : Store) : Prop :=
  MeansAll η (Γ.spent c.left) s c.value Ts

namespace Term

/-- Compilation within a budget keeps the meaning. -/
def CompilesWithin (η : Prop) (R : Rules) (limits : Budget) (budget : Nat) : Prop :=
  ∀ (expanding : List Native) (t : Term) (Γ : Scope) (s : Store), Γ.Sealed s → t.Fits Γ s →
    Ensures (compile R limits expanding budget t) s (Compiles η Γ t.reading)

variable {v : Variable} {body : Term} {T : LambdaTerm}

/-- A body in which a variable does not occur becomes a constant function. -/
private theorem ensures_constant (R : Rules) (hb : Means η (Γ.bind v) s body T)
    (hv : ¬ body.occurs v = true) :
    Ensures (apply R (native .K) [body]) s fun u s' => Means η Γ s' u (T.abs v) := by
  have absent : ¬ body.reading.Mentions v := fun hm => hv (occurs_of_mentions hm)
  have head : Means η Γ s (native .K) Native.K.reading := .self rfl
  have arg : Means η Γ s body body.reading := .self (hb.fits.unbind hv)
  apply (ensures_apply R head (.cons arg .nil)).imp
  intro u s' _ hu
  exact (hu.trans (Native.converts_K_abs absent)).trans (hb.converts.abs v)

/-- A lambda around a compiled body is left in place. -/
private theorem ensures_left (R : Rules) (hΓ : Γ.Minted s) (hb : Means η (Γ.bind v) s body T) :
    Ensures (abstract R v body) s fun u s' => Means η Γ s' u (T.abs v) :=
  ensures_abstract R hΓ (hb.mono ((Scope.Below.refl Γ).bind_see v))

/-- The compilation of a lambda is the elimination of its variable. -/
theorem compile_lam (R : Rules) (limits : Budget) (expanding : List Native) (budget : Nat)
    (v : Variable) (b : Term) :
    compile R limits expanding budget (lam v b) = eliminate R limits expanding budget v b := by
  rw [compile]

/-- Compilation of what means a lambda term means it. -/
private theorem CompilesWithin.ensures {R : Rules} {limits : Budget} {budget : Nat}
    (h : CompilesWithin η R limits budget) (expanding : List Native) (hΓ : Γ.Sealed s) {t : Term}
    (ht : Means η Γ s t T) :
    Ensures (compile R limits expanding budget t) s (Compiles η Γ T) :=
  (h expanding t Γ s hΓ ht.fits).imp fun _ _ _ hc => Means.trans hc ht.converts

/-- What has no names is a compiled term, whatever is left of the budget. -/
private theorem compiles_of_nameless {u : Term} {left budget : Nat} {h : left ≤ budget}
    (hu : Means η Γ.nameless s u T) : Compiles η Γ T ⟨u, left, h⟩ s :=
  hu.mono (Γ.nameless_below_spent left)

/-- A rule that leaves no names makes a compiled term of what it gives. -/
private theorem ensures_rule {x : Engine Term} {left budget : Nat} (h : left ≤ budget)
    (hx : Ensures x s fun u s' => Means η Γ.nameless s' u T) :
    Ensures (do return (⟨← x, left, h⟩ : Compiled Term budget)) s (Compiles η Γ T) := by
  apply hx.bind
  intro u s₁ _ hu
  exact .pure (compiles_of_nameless hu)

/-- A variable eliminated from both halves of an application is shared by `S`. -/
private theorem ensures_shared (R : Rules) {limits : Budget} {expanding : List Native}
    {left budget : Nat} (h : left ≤ budget) (ih : ∀ l ≤ left, CompilesWithin η R limits l)
    (hΓ : Γ.Sealed s) {front last : Term} (hf : front.Fits (Γ.bind v) s)
    (ha : last.Fits (Γ.bind v) s)
    (hT : Converts η ((LambdaTerm.app front.reading last.reading).abs v) T) :
    Ensures (do
      let (v₁, front) ← close R v front
      let front ← eliminate R limits expanding left v₁ front
      let (v₂, last) ← close R v last
      let last ← eliminate R limits expanding front.left v₂ last
      return (⟨← apply R (native .S) [front.value, last.value], last.left,
        Nat.le_trans last.left_le (Nat.le_trans front.left_le h)⟩ : Compiled Term budget)) s
      fun c s' => Means η Γ s' c.value T := by
  have seen := (Scope.Below.refl Γ).bind_see v
  apply (ensures_close (η := η) R hΓ.minted (.self (hf.mono seen))).bind
  rintro ⟨v₁, f⟩ s₁ hs₁ hf
  have hΓ := hΓ.later hs₁
  dsimp only at hf ⊢
  rw [← compile_lam]
  apply ((ih left (Nat.le_refl left)).ensures expanding hΓ hf).bind
  intro f' s₂ hs₂ hf
  have hΓ := hΓ.later hs₂
  have ha := ha.later (Store.le_trans hs₁ hs₂)
  apply (ensures_close (η := η) R hΓ.minted (.self (ha.mono seen))).bind
  rintro ⟨v₂, a⟩ s₃ hs₃ ha
  have hΓ := hΓ.later hs₃
  dsimp only at ha ⊢
  rw [← compile_lam]
  apply ((ih f'.left f'.left_le).ensures expanding hΓ ha).bind
  intro a' s₄ hs₄ ha
  have head : Means η Γ s₄ (native .S) Native.S.reading := .self rfl
  have first : Means η Γ s₄ f'.value (front.reading.abs v) :=
    (Means.mono hf (Γ.spent_below f'.left)).later (Store.le_trans hs₃ hs₄)
  have second : Means η Γ s₄ a'.value (last.reading.abs v) := ha.mono (Γ.spent_below a'.left)
  apply (ensures_apply R head (.cons first (.cons second .nil))).bind
  intro u s₅ _ hu
  exact .pure ((hu.trans (Native.converts_S_abs v _ _)).trans hT)

/-- Elimination of a variable from a body means abstraction, if the compilation of the body keeps
its meaning and so does every compilation within less. -/
private theorem ensures_eliminate (R : Rules) (hη : η) {limits : Budget}
    {expanding : List Native} {budget : Nat} (ih : ∀ l < budget, CompilesWithin η R limits l)
    (hΓ : Γ.Sealed s) (hm : s.Minted v)
    (hbody : Ensures (compile R limits expanding budget body) s (Compiles η (Γ.bind v) T)) :
    Ensures (eliminate R limits expanding budget v body) s (Compiles η Γ (T.abs v)) := by
  unfold eliminate
  apply hbody.bind
  intro c s₁ hs₁ hc
  have hΓ := hΓ.later hs₁
  have hm := hm.mono hs₁
  split
  · -- Nothing is left: names may remain, and no rule is tried.
    have hc : Means η (Γ.bind v) s₁ c.value T := hc.mono ((Γ.bind v).spent_below c.left)
    apply (ensures_left R hΓ.minted hc).bind
    intro u s₂ _ hu
    exact .pure (hu.mono Γ.below_spent_zero)
  · next left hleft =>
    have hc : Means η (Γ.nameless.bind v) s₁ c.value T := by
      have : Means η ((Γ.bind v).spent c.left) s₁ c.value T := hc
      rw [hleft] at this
      exact this.mono ((Γ.bind v).spent_succ_below left)
    have hl : left < budget := by
      have := c.left_le
      omega
    have hΓ₀ := hΓ.nameless
    have unnamed : ¬ (Γ.nameless.bind v).names := id
    dsimp only
    split
    · next w hw =>
      rw [hw] at hc
      split
      · next hwv =>
        have identity : Converts η Native.I.reading (T.abs v) := by
          rw [Native.reading_I_eq_abs v]
          exact (hwv ▸ hc.converts).abs v
        exact .pure (compiles_of_nameless ⟨rfl, identity⟩)
      · next hwv =>
        have other : ¬ (var w).occurs v = true := by
          rw [occurs, decide_eq_true_iff]
          exact hwv
        rw [hw]
        exact ensures_rule _ (ensures_constant R hc other)
    · next n hd as happ =>
      rw [happ] at hc ⊢
      apply (ensures_mentions unnamed hc.fits v).bind
      intro b s₂ hs₂ hb
      have hc := hc.later hs₂
      have hΓ₀ := hΓ₀.later hs₂
      split
      · next hno =>
        rw [Bool.not_eq_true'] at hno
        exact ensures_rule _ (ensures_constant R hc (hb hno))
      · apply (ensures_split (η := η) R hc.fits).bind
        rintro ⟨front, last⟩ s₃ hs₃ ⟨hf, ha, hwhole⟩
        have hΓ₀ := hΓ₀.later hs₃
        have whole := (hwhole.trans hc.converts).abs v
        dsimp only at hf ha whole ⊢
        apply (ensures_endsIn unnamed hf v last).bind
        intro b s₄ hs₄ hb
        have hΓ₀ := hΓ₀.later hs₄
        have hf := hf.later hs₄
        split
        · next hends =>
          obtain ⟨rfl, hno⟩ := hb hends
          have absent : ¬ front.reading.Mentions v := fun hm => hno (occurs_of_mentions hm)
          have arrow : Converts η front.reading (T.abs v) :=
            (Converts.abs_app_free hη absent).symm.trans whole
          apply ((ih left hl).ensures expanding hΓ₀ ⟨hf.unbind hno, arrow⟩).bind
          intro d s₅ _ hd
          exact .pure (compiles_of_nameless (hd.mono (Γ.nameless.spent_below d.left)))
        · apply (ensures_shared R (Nat.le_of_lt hl) (fun l h => ih l (Nat.lt_of_le_of_lt h hl)) hΓ₀
            hf (ha.later hs₄) whole).imp
          intro d s₅ _ hd
          exact compiles_of_nameless hd
    · next rest hvar happ =>
      apply (ensures_mentions unnamed hc.fits v).bind
      intro b s₂ hs₂ hb
      have hc := hc.later hs₂
      split
      · next hno =>
        rw [Bool.not_eq_true'] at hno
        exact ensures_rule _ (ensures_constant R hc (hb hno))
      · exact ensures_rule _ (ensures_left R (hΓ₀.later hs₂).minted hc)

mutual

/-- Compilation within a budget keeps the meaning of a term, if every compilation within less
does. -/
private theorem ensures_compile (R : Rules) (hη : η) {limits : Budget} {budget : Nat}
    (ih : ∀ l < budget, CompilesWithin η R limits l) (expanding : List Native) :
    ∀ (t : Term) {Γ : Scope} {s : Store}, Γ.Sealed s → t.Fits Γ s →
      Ensures (compile R limits expanding budget t) s (Compiles η Γ t.reading)
  | var v, Γ, s, _, ht => by
    unfold compile
    exact .pure (.self ht)
  | foreign _, _, _, _, ht => ht.elim
  | native c, Γ, s, hΓ, ht => by
    unfold compile
    split
    · exact .pure (.self ht)
    · split
      · exact .pure (.self ht)
      · next left =>
        have unnamed : (native c).Fits Γ.nameless s := ht
        have expanded : Ensures (canonical R limits (native c)) s fun o s' =>
            ∀ u, o = some u → Means η Γ.nameless s' u c.reading :=
          (ensures_canonicalize (η := η) R hη limits false hΓ.nameless unnamed).bind
            fun _ _ _ h => .pure h
        apply expanded.bind
        intro o s₁ hs₁ ho
        cases o with
        | none => exact .pure (.self ht)
        | some form =>
          apply ((ih left (Nat.lt_succ_self left)).ensures (c :: expanding) (hΓ.nameless.later hs₁)
            (ho form rfl)).bind
          intro d s₂ _ hd
          exact .pure (compiles_of_nameless (hd.mono (Γ.nameless.spent_below d.left)))
  | named info d, Γ, s, hΓ, ht => by
    unfold compile
    exact ensures_compile R hη ih expanding d hΓ ht.2
  | lam v b, Γ, s, hΓ, ht => by
    rw [compile_lam]
    exact ensures_eliminate R hη ih hΓ ht.2.1
      (ensures_compile R hη ih expanding b (hΓ.bind ht.2.1) ht.2.2)
  | app n h as, Γ, s, hΓ, ht => by
    unfold compile
    split
    · next h0 =>
      subst h0
      exact .pure ((Means.self ht).mono Γ.below_spent_zero)
    · apply (ensures_compile R hη ih expanding h hΓ ht.2.1).bind
      intro h' s₁ hs₁ hh
      apply (ensures_compileAll R hη ih expanding as h'.left_le (hΓ.later hs₁)
        (ht.2.2.later hs₁)).bind
      intro as' s₂ hs₂ has
      have hh : Means η (Γ.spent as'.left) s₂ h'.value h.reading :=
        (Means.mono hh (Γ.spent_below_spent as'.left_le)).later hs₂
      apply (ensures_apply R hh has).bind
      intro u s₃ _ hu
      exact .pure hu

/-- Compilation within no more than a budget keeps the meaning of some terms, if every compilation
within less than the budget does. -/
private theorem ensures_compileAll (R : Rules) (hη : η) {limits : Budget} {budget : Nat}
    (ih : ∀ l < budget, CompilesWithin η R limits l) (expanding : List Native) :
    ∀ (ts : List Term) {b : Nat} {Γ : Scope} {s : Store}, b ≤ budget → Γ.Sealed s →
      FitsAll Γ s ts →
        Ensures (compileAll R limits expanding b ts) s (CompilesAll η Γ (readings ts))
  | [], b, Γ, s, _, _, _ => by
    unfold compileAll
    exact .pure .nil
  | t :: ts, b, Γ, s, hb, hΓ, hts => by
    unfold compileAll
    have head : Ensures (compile R limits expanding b t) s (Compiles η Γ t.reading) := by
      rcases Nat.lt_or_eq_of_le hb with hlt | rfl
      · exact ih b hlt expanding t Γ s hΓ hts.1
      · exact ensures_compile R hη ih expanding t hΓ hts.1
    refine head.bind ?_
    intro t' s₁ hs₁ ht
    apply (ensures_compileAll R hη ih expanding ts (Nat.le_trans t'.left_le hb) (hΓ.later hs₁)
      (hts.2.later hs₁)).bind
    intro ts' s₂ hs₂ hts
    have ht : Means η (Γ.spent ts'.left) s₂ t'.value t.reading :=
      (Means.mono ht (Γ.spent_below_spent ts'.left_le)).later hs₂
    exact .pure (.cons ht hts)

end

/-- Compilation keeps the meaning within every budget. -/
theorem compilesWithin (R : Rules) (hη : η) (limits : Budget) (budget : Nat) :
    CompilesWithin η R limits budget := by
  induction budget using Nat.strong_induction_on with
  | _ budget ih =>
    intro expanding t Γ s hΓ ht
    exact ensures_compile R hη ih expanding t hΓ ht

/-- A compiled term means the term, whatever is allowed. -/
theorem ensures_compileWithin (R : Rules) (hη : η) (limits : Budget) (budget : Amount)
    (hΓ : Γ.Sealed s) {t : Term} (ht : t.Fits Γ s) :
    Ensures (compileWithin R limits budget t) s fun p s' => Means η Γ s' p.1 t.reading := by
  have compiled (n : Int) (s₁ : Store) (hs₁ : s ≤ s₁) : Ensures (do
      let out ← compile R limits [] n.toNat t
      return (out.value, n.toNat - out.left)) s₁ fun p s' => Means η Γ s' p.1 t.reading := by
    apply (compilesWithin R hη limits n.toNat [] t Γ s₁ (hΓ.later hs₁) (ht.later hs₁)).bind
    intro out s₂ _ hout
    exact .pure (Means.mono hout (Γ.spent_below out.left))
  unfold compileWithin
  dsimp only
  split
  · exact (Engine.ensures_goal budget s).bind fun n s₁ hs₁ _ => compiled n s₁ hs₁
  · rw [pure_bind]
    exact compiled 0 s s.le_refl

/-- The bracket form of a term means the term, at every budget. -/
theorem ensures_bracketForm (R : Rules) (hη : η) (limits : Budget) (maxSteps : Amount)
    (hΓ : Γ.Sealed s) {t : Term} (ht : t.Fits Γ s) :
    Ensures (bracketForm R limits maxSteps t) s fun u s' => Means η Γ s' u t.reading := by
  unfold bracketForm
  apply (ensures_compileWithin R hη limits maxSteps hΓ ht).bind
  intro p s₁ _ hp
  exact .pure hp

/-- Every snapshot of a gradual compilation means the term. -/
theorem ensures_bracketForms {β : Type} (R : Rules) (hη : η) (limits : Budget) (perStep : Amount)
    (limit : Nat) (view : Run → Except Failure β) (hΓ : Γ.Sealed s) {t : Term}
    (ht : t.Fits Γ s) :
    Ensures (bracketForms R limits perStep limit view t) s fun l s' =>
      ∀ y ∈ l.items, ∃ r, view r = .ok y ∧ Means η Γ s' r.term t.reading := by
  have next (c : Compilation) (s₁ : Store) (h : Γ.Sealed s₁ ∧ Means η Γ s₁ c.term t.reading) :
      Ensures (Compilation.next R limits perStep c) s₁ fun o s₂ => ∀ r c', o = some (r, c') →
        Means η Γ s₂ r.term t.reading ∧ Γ.Sealed s₂ ∧ Means η Γ s₂ c'.term t.reading := by
    obtain ⟨hΓ, hc⟩ := h
    unfold Compilation.next
    split
    · exact .pure fun _ _ h => nomatch h
    · apply (ensures_compileWithin R hη limits perStep hΓ hc.fits).bind
      rintro ⟨u, n⟩ s₂ hs₂ hu
      refine .pure ?_
      rintro _ _ ⟨⟩
      exact ⟨hc.later hs₂, hΓ.later hs₂, hu.trans hc.converts⟩
  have start : Γ.Sealed s ∧ Means η Γ s (Compilation.mk t 0 false).term t.reading :=
    ⟨hΓ, .self ht⟩
  exact Listing.ensures_unfold (fun _ _ _ hs hr => hr.later hs) next limit start

end Term

end Combinatory
