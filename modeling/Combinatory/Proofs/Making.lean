import Combinatory.Proofs.Ending
import Combinatory.Proofs.Reading
import Combinatory.Reduction
import Combinatory.Symbols

/-!
# What terms are made of

Which combinators and names a term is made of decides what can go wrong when it is computed with.
If rules lead from such terms to such terms only, then so does all that is made of them, and nothing
fails but the successor of the longest numerals: a step costs one at most, and lambdas never nest
deeper than a term is rebuilt.
-/

namespace Combinatory

open Engine (Ends)

/-- What terms may be made of. -/
structure Kinds where
  native : Native → Prop
  name : NameInfo → Prop
  /-- Whether an application may be the head of another one. -/
  nested : Prop

/-- All combinators and names. -/
def Kinds.anything : Kinds := ⟨fun _ => True, fun _ => True, True⟩

namespace Term

/-- Whether a term is an application. -/
def isApp : Term → Bool
  | app _ _ _ => true
  | _ => false

theorem eq_app_of_isApp {t : Term} (h : t.isApp = true) : ∃ n g bs, t = app n g bs := by
  cases t with
  | app n g bs => exact ⟨n, g, bs, rfl⟩
  | _ => cases h

mutual

/-- Whether a term is made of the combinators and names of some kinds, and no literal. -/
def MadeOf (K : Kinds) : Term → Prop
  | var _ => True
  | native c => K.native c
  | foreign _ => False
  | named info d => K.name info ∧ MadeOf K d
  | lam _ b => MadeOf K b
  | app _ h as => (h.isApp = true → K.nested) ∧ MadeOf K h ∧ MadeOfAll K as

/-- Whether all terms of a list are made of some kinds. -/
def MadeOfAll (K : Kinds) : List Term → Prop
  | [] => True
  | a :: as => MadeOf K a ∧ MadeOfAll K as

end

/-- Whether a term is made of some kinds, if there is one. -/
abbrev MadeOfAny (K : Kinds) (o : Option Term) : Prop := ∀ u, o = some u → u.MadeOf K

variable {K : Kinds} {t : Term} {ts us : List Term}

theorem MadeOfAll.nil : MadeOfAll K [] := trivial

theorem MadeOfAll.cons (ht : t.MadeOf K) (hts : MadeOfAll K ts) : MadeOfAll K (t :: ts) :=
  ⟨ht, hts⟩

theorem madeOfAll_iff : MadeOfAll K ts ↔ ∀ t ∈ ts, t.MadeOf K := by
  induction ts with
  | nil => simp [MadeOfAll]
  | cons t ts ih => rw [MadeOfAll, ih, List.forall_mem_cons]

theorem madeOfAll_append : MadeOfAll K (ts ++ us) ↔ MadeOfAll K ts ∧ MadeOfAll K us := by
  simp only [madeOfAll_iff, List.forall_mem_append]

/-- What is made of combinators and names is no literal. -/
theorem MadeOf.literal?_eq_none (h : t.MadeOf K) : t.literal? = none := by
  cases t with
  | foreign x => exact h.elim
  | _ => rfl

/-- No literal is among such terms. -/
theorem MadeOfAll.firstLiteral_eq_none (h : MadeOfAll K ts) : firstLiteral ts = none := by
  rw [firstLiteral, List.findSome?_eq_none_iff]
  exact fun t ht => (madeOfAll_iff.mp h t ht).literal?_eq_none

mutual

/-- Where names are ruled out there is none to open. -/
theorem MadeOf.pending_eq_zero (hK : ∀ info, ¬ K.name info) : ∀ {t : Term}, t.MadeOf K →
    t.pending = 0
  | var _, _ => rfl
  | native _, _ => rfl
  | foreign _, _ => rfl
  | named info _, h => absurd h.1 (hK info)
  | lam _ b, h => MadeOf.pending_eq_zero hK (t := b) h
  | app _ h as, ⟨_, hh, has⟩ => by
    rw [pending, MadeOf.pending_eq_zero hK hh, MadeOfAll.pending_eq_zero hK has]

theorem MadeOfAll.pending_eq_zero (hK : ∀ info, ¬ K.name info) : ∀ {ts : List Term},
    MadeOfAll K ts → pendingAll ts = 0
  | [], _ => rfl
  | _ :: _, ⟨ht, hts⟩ => by
    rw [pendingAll, MadeOf.pending_eq_zero hK ht, MadeOfAll.pending_eq_zero hK hts]

end

/-! ### Symbols -/

mutual

/-- No literal is among the symbols. -/
private theorem countable_symbolsUnder : ∀ (t : Term) (bound : List Variable) {rest : List Symbol},
    t.MadeOf K → (∀ y ∈ rest, y.uncountable? = none) →
      ∀ y ∈ symbolsUnder bound t rest, y.uncountable? = none
  | var w, bound, rest, _, hrest => by
    rw [symbolsUnder]
    split
    · exact hrest
    · exact List.forall_mem_cons.mpr ⟨rfl, hrest⟩
  | native c, bound, rest, _, hrest => List.forall_mem_cons.mpr ⟨rfl, hrest⟩
  | foreign _, _, _, ht, _ => ht.elim
  | named info d, bound, rest, ht, hrest => by
    rw [symbolsUnder]
    split
    · exact List.forall_mem_cons.mpr ⟨rfl, hrest⟩
    · exact countable_symbolsUnder d bound ht.2 hrest
  | lam v b, bound, rest, ht, hrest =>
    List.forall_mem_cons.mpr ⟨rfl, countable_symbolsUnder b (v :: bound) ht hrest⟩
  | app _ h as, bound, rest, ht, hrest =>
    countable_symbolsUnder h bound ht.2.1 (countable_symbolsOfAll as bound ht.2.2 hrest)

private theorem countable_symbolsOfAll : ∀ (ts : List Term) (bound : List Variable)
    {rest : List Symbol}, MadeOfAll K ts → (∀ y ∈ rest, y.uncountable? = none) →
      ∀ y ∈ symbolsOfAll bound ts rest, y.uncountable? = none
  | [], _, _, _, hrest => hrest
  | t :: ts, bound, _, hts, hrest =>
    countable_symbolsUnder t bound hts.1 (countable_symbolsOfAll ts bound hts.2 hrest)

end

/-- The symbols of a term without literals are counted. -/
theorem MadeOf.counted_eq (ht : t.MadeOf K) : counted t = pure t.symbols := by
  have countable : t.symbols.reverse.findSome? Symbol.uncountable? = none := by
    refine List.findSome?_eq_none_iff.mpr fun y hy => ?_
    exact countable_symbolsUnder t [] ht (List.forall_mem_nil _) y (List.mem_reverse.mp hy)
  rw [counted, countable]

/-- Whether only variables are among the symbols of a term is told by its weight. -/
theorem MadeOf.variablesOnly_eq (ht : t.MadeOf K) :
    variablesOnly t = pure (decide (t.weight = 0)) := by
  rw [variablesOnly, ht.counted_eq, pure_bind]
  congr 1
  rw [Bool.eq_iff_iff, decide_eq_true_iff, weight_eq_countP, List.countP_eq_zero]
  simp

/-! ### How deep lambdas nest -/

theorem lambdaDepthOfAll_append (ts us : List Term) :
    lambdaDepthOfAll (ts ++ us) = max (lambdaDepthOfAll ts) (lambdaDepthOfAll us) := by
  induction ts with
  | nil => simp [lambdaDepthOfAll]
  | cons t ts ih => rw [List.cons_append, lambdaDepthOfAll, lambdaDepthOfAll, ih, Nat.max_assoc]

/-- Whether a term is made of some kinds, with lambdas nested up to a depth. -/
def MadeWithin (K : Kinds) (depth : Nat) (t : Term) : Prop := t.MadeOf K ∧ t.lambdaDepth ≤ depth

end Term

/-! ### What cannot be reached -/

/-- The only cause for which something made of some kinds may fail: a numeral gets too long. -/
def Kinds.Obstacle (K : Kinds) (e : Failure) : Prop :=
  e = .numeralTooLong ∧ K.native .successor

/-- Whether rules lead from terms of some kinds to such terms only. No combinator has a hook but the
successor, none evaluates its argument, and the rules of user combinators always give a term. -/
structure Kinds.Closed (K : Kinds) (R : Rules) : Prop where
  numeral : K.native .successor → ∀ n, K.native (.numeral n)
  toNumeral : ¬ K.native .toNumeral
  lambdaMark : ¬ K.native .lambdaMark
  hookless : ∀ u, K.native (.user u) → u.hooked = false
  contract : ∀ u, K.native (.user u) → ∀ as, as.length = u.arity → Term.MadeOfAll K as →
    Ends (R.contract u as) K.Obstacle (Term.MadeOf K)
  arity : ∀ info, K.name info → ∃ m, info.arity.bound? = some m

namespace Kinds

/-- The combinators that stand for lambda terms, and names that wait for a number of arguments. -/
def pure : Kinds where
  native c := c.isPure = true
  name info := ∃ n : Nat, info.arity = .number n
  nested := False

/-- Rules do not matter where no combinator looks at them. -/
theorem closed_of_isPure {K : Kinds} (R : Rules) (hpure : ∀ c, K.native c → c.isPure = true)
    (numeral : K.native .successor → ∀ n, K.native (.numeral n))
    (arity : ∀ info, K.name info → ∃ m, info.arity.bound? = some m) : K.Closed R where
  numeral := numeral
  toNumeral h := nomatch hpure _ h
  lambdaMark h := nomatch hpure _ h
  hookless _ h := nomatch hpure _ h
  contract _ h := nomatch hpure _ h
  arity := arity

/-- No rules lead out of the terms of such combinators. -/
theorem closed_pure (R : Rules) : pure.Closed R :=
  closed_of_isPure R (fun _ h => h) (fun _ _ => rfl) fun _ ⟨n, hn⟩ => ⟨n, hn ▸ rfl⟩

end Kinds

variable {K : Kinds} {R : Rules}

namespace Term

mutual

/-- Terms of such kinds have no hook of the user. -/
theorem MadeOf.hookless (hK : K.Closed R) : ∀ {t : Term}, t.MadeOf K → t.hookless = true
  | var _, _ => rfl
  | native c, h => by
    cases c with
    | user u => simp [Term.hookless, hK.hookless u h]
    | _ => rfl
  | foreign _, _ => rfl
  | named _ d, h => MadeOf.hookless hK (t := d) h.2
  | lam _ b, h => MadeOf.hookless hK (t := b) h
  | app _ _ _, ⟨_, hh, has⟩ => by
    rw [Term.hookless, MadeOf.hookless hK hh, MadeOfAll.hookless hK has, Bool.and_self]

theorem MadeOfAll.hookless (hK : K.Closed R) :
    ∀ {ts : List Term}, MadeOfAll K ts → hooklessAll ts = true
  | [], _ => rfl
  | _ :: _, ⟨ht, hts⟩ => by
    rw [hooklessAll, MadeOf.hookless hK ht, MadeOfAll.hookless hK hts, Bool.and_self]

end

/-- So no hook of the user can replace anything in them. -/
theorem MadeOf.quiet (hK : K.Closed R) {t : Term} (h : t.MadeOf K) : R.quiet t = true := by
  rw [Rules.quiet, h.hookless hK, Bool.or_true]

end Term

namespace Native

/-- Only the successor replaces anything, namely a numeral by the next one. -/
theorem ends_replacement (hK : K.Closed R) {c : Native} (hc : K.native c) (a : Term) :
    Ends (c.replacement R a) K.Obstacle fun o => ∀ u, o = some u → u.MadeWithin K 0 := by
  unfold replacement
  split
  · split
    · split
      · refine .pure ?_
        rintro _ ⟨⟩
        exact ⟨hK.numeral hc _, Nat.le_refl 0⟩
      · exact .throw ⟨rfl, hc⟩
    · exact .pure nofun
  · exact absurd hc hK.lambdaMark
  · next u =>
    rw [if_neg (by simp [hK.hookless u hc])]
    exact .pure nofun
  · exact .pure nofun

end Native

namespace Term

/-! ### Application -/

/-- An application of a head that is no application, made as it stands. -/
private theorem ends_made {d : Nat} {h : Term} {as : List Term} (hh : h.MadeWithin K d)
    (hflat : h.isApp = true → K.nested) (has : MadeOfAll K as) (hd : lambdaDepthOfAll as ≤ d) :
    Ends (Engine.node h as) K.Obstacle (MadeWithin K d) := by
  apply (Engine.ends_node h as).imp
  rintro _ ⟨n, rfl⟩
  exact ⟨⟨hflat, hh.1, has⟩, Nat.max_le.mpr ⟨hh.2, hd⟩⟩

theorem ends_extend (hK : K.Closed R) {d : Nat} : ∀ (as : List Term) {t : Term},
    t.MadeWithin K d → MadeOfAll K as → lambdaDepthOfAll as ≤ d →
      Ends (extend R t as) K.Obstacle (MadeWithin K d)
  | [], t, ht, _, _ => by
    unfold extend
    exact .pure ht
  | a :: as, t, ht, has, hd => by
    unfold extend
    split
    · next n h bs =>
      obtain ⟨⟨hflat, hh, hbs⟩, hdepth⟩ := ht
      have parts := Nat.max_le.mp hdepth
      refine ends_made ⟨hh, parts.1⟩ hflat (madeOfAll_append.mpr ⟨hbs, has⟩) ?_
      rw [lambdaDepthOfAll_append]
      exact Nat.max_le.mpr ⟨parts.2, hd⟩
    · next c =>
      apply (Native.ends_replacement hK ht.1 a).bind
      intro o ho
      cases o with
      | some r =>
        obtain ⟨hr, hr₀⟩ := ho r rfl
        exact ends_extend hK as ⟨hr, Nat.le_trans hr₀ (Nat.zero_le d)⟩ has.2
          (Nat.max_le.mp hd).2
      | none => exact ends_made ht nofun has hd
    · next happ _ =>
      refine ends_made ht (fun h => ?_) has hd
      obtain ⟨n, g, bs, rfl⟩ := eq_app_of_isApp h
      exact absurd rfl (happ n g bs)

/-- Applying such terms makes such a term, and nests no lambdas. -/
theorem ends_apply (hK : K.Closed R) {d : Nat} {t : Term} {as : List Term}
    (ht : t.MadeWithin K d) (has : MadeOfAll K as) (hd : lambdaDepthOfAll as ≤ d) :
    Ends (apply R t as) K.Obstacle (MadeWithin K d) := by
  rw [apply_eq_extend R t has.firstLiteral_eq_none]
  exact ends_extend hK as ht has hd

/-- Applying such terms makes such a term. -/
theorem ends_apply_madeOf (hK : K.Closed R) {t : Term} {as : List Term} (ht : t.MadeOf K)
    (has : MadeOfAll K as) : Ends (apply R t as) K.Obstacle (MadeOf K) :=
  (ends_apply hK ⟨ht, Nat.le_max_left _ _⟩ has (Nat.le_max_right _ _)).imp fun _ h => h.1

/-! ### Replacing a variable -/

/-- Nothing is made where there is no term. -/
private theorem none_within {d : Nat} : ∀ u, (none : Option Term) = some u → u.MadeWithin K d := by
  rintro u ⟨⟩

/-- Closing a body over a variable again nests its lambdas one deeper, if they are not nested too
deep. -/
def ClosesAgain (K : Kinds) (limit : Nat) (reclose : Variable → Term → Engine Term) : Prop :=
  ∀ w b d, d < limit → b.MadeWithin K d → Ends (reclose w b) K.Obstacle (MadeWithin K (d + 1))

mutual

theorem ends_replace (hK : K.Closed R) {limit e : Nat} {v : Variable} {value : Term}
    {reclose : Variable → Term → Engine Term} (hre : ClosesAgain K limit reclose)
    (hvalue : value.MadeWithin K e) : ∀ {t : Term} {d : Nat}, t.MadeWithin K d →
      d + e ≤ limit → Ends (replace R reclose t v value) K.Obstacle fun o =>
        ∀ u, o = some u → u.MadeWithin K (d + e)
  | var w, d, _, _ => by
    unfold replace
    refine .pure fun u hu => ?_
    split at hu
    · cases hu
      exact ⟨hvalue.1, Nat.le_trans hvalue.2 (Nat.le_add_left e d)⟩
    · cases hu
  | native c, _, _, _ => by
    unfold replace
    exact .pure none_within
  | foreign x, _, _, _ => by
    unfold replace
    exact .pure none_within
  | named info b, d, ht, hd => by
    unfold replace
    exact ends_replace hK hre hvalue (t := b) ⟨ht.1.2, ht.2⟩ hd
  | lam w b, d, ht, hd => by
    unfold replace
    split
    · exact .pure none_within
    · obtain ⟨hb, hdepth⟩ := ht
      obtain ⟨d, rfl⟩ : ∃ k, d = k + 1 := ⟨d - 1, by rw [lambdaDepth] at hdepth; omega⟩
      apply (ends_replace hK hre hvalue (t := b) ⟨hb, Nat.le_of_succ_le_succ hdepth⟩
        (by omega)).bind
      intro o ho
      cases o with
      | none => exact .pure none_within
      | some b' =>
        apply (hre w b' (d + e) (by omega) (ho b' rfl)).bind
        intro u hu
        refine .pure ?_
        rintro _ ⟨⟩
        rwa [Nat.succ_add]
  | app n h as, d, ht, hd => by
    obtain ⟨⟨hflat, hh, has⟩, hdepth⟩ := ht
    have parts := Nat.max_le.mp hdepth
    unfold replace
    apply (ends_replace hK hre hvalue ⟨hh, parts.1⟩ hd).bind
    intro h' hh'
    apply (ends_replaceAll hK hre hvalue has parts.2 hd).bind
    intro as' has'
    split
    · exact .pure none_within
    · have head : (h'.getD h).MadeWithin K (d + e) := by
        cases h' with
        | none => exact ⟨hh, Nat.le_trans parts.1 (Nat.le_add_right d e)⟩
        | some u => exact hh' u rfl
      apply (ends_apply hK head has'.1 has'.2).bind
      intro u hu
      refine .pure ?_
      rintro _ ⟨⟩
      exact hu

theorem ends_replaceAll (hK : K.Closed R) {limit e : Nat} {v : Variable} {value : Term}
    {reclose : Variable → Term → Engine Term} (hre : ClosesAgain K limit reclose)
    (hvalue : value.MadeWithin K e) : ∀ {ts : List Term} {d : Nat}, MadeOfAll K ts →
      lambdaDepthOfAll ts ≤ d → d + e ≤ limit →
        Ends (replaceAll R reclose ts v value) K.Obstacle fun ps =>
          MadeOfAll K (ps.map fun p => p.2.getD p.1) ∧
            lambdaDepthOfAll (ps.map fun p => p.2.getD p.1) ≤ d + e
  | [], d, _, _, _ => by
    unfold replaceAll
    exact .pure ⟨trivial, Nat.zero_le _⟩
  | t :: ts, d, hts, hdepth, hd => by
    have parts := Nat.max_le.mp hdepth
    unfold replaceAll
    apply (ends_replace hK hre hvalue ⟨hts.1, parts.1⟩ hd).bind
    intro o ho
    apply (ends_replaceAll hK hre hvalue hts.2 parts.2 hd).bind
    intro ps hps
    have first : (o.getD t).MadeWithin K (d + e) := by
      cases o with
      | none => exact ⟨hts.1, Nat.le_trans parts.1 (Nat.le_add_right d e)⟩
      | some u => exact ho u rfl
    exact .pure ⟨⟨first.1, hps.1⟩, Nat.max_le.mpr ⟨first.2, hps.2⟩⟩

end

/-- A variable put in place of another one leaves lambdas nested as they are. -/
private theorem ends_renamed (hK : K.Closed R) {limit d : Nat} {t : Term}
    {reclose : Variable → Term → Engine Term} (hre : ClosesAgain K limit reclose)
    (v w : Variable) (ht : t.MadeWithin K d) (hd : d ≤ limit) :
    Ends (do return (w, (← replace R reclose t v (var w)).getD t)) K.Obstacle
      fun p => p.2.MadeWithin K d := by
  have hw : (var w).MadeWithin K 0 := ⟨trivial, Nat.le_refl 0⟩
  apply (ends_replace hK hre hw ht hd).bind
  intro o ho
  refine .pure ?_
  cases o with
  | none => exact ht
  | some u => exact ho u rfl

/-- Closing a term over a variable leaves its lambdas nested as they are. -/
theorem ends_closeWithin (hK : K.Closed R) (v : Variable) (depth : Nat) {t : Term} {d : Nat}
    (ht : t.MadeWithin K d) (hd : d ≤ depth) :
    Ends (closeWithin R depth v t) K.Obstacle fun p => p.2.MadeWithin K d := by
  induction depth generalizing v t d with
  | zero =>
    rw [closeWithin.eq_2 _ _ _ fun x hx => by rw [hx] at ht; exact ht.1]
    apply (Engine.ends_freshVariable v.name).bind
    intro w _
    refine ends_renamed hK ?_ v w ht hd
    exact fun _ _ _ h => absurd h (Nat.not_lt_zero _)
  | succ depth ih =>
    rw [closeWithin.eq_3 _ _ _ _ fun x hx => by rw [hx] at ht; exact ht.1]
    apply (Engine.ends_freshVariable v.name).bind
    intro w _
    refine ends_renamed hK ?_ v w ht hd
    -- a lambda in the term is closed again one level deeper
    intro u b d hd hb
    apply (ih u hb (Nat.le_of_lt_succ hd)).bind
    intro p hp
    exact .pure ⟨hp.1, Nat.succ_le_succ hp.2⟩

/-- Closing a term over a variable leaves its lambdas nested as they are. -/
theorem ends_close (hK : K.Closed R) (v : Variable) {t : Term} {d : Nat} (ht : t.MadeWithin K d) :
    Ends (close R v t) K.Obstacle fun p => p.2.MadeWithin K d := by
  apply (ends_closeWithin hK v t.rebuildDepth ⟨ht.1, Nat.le_refl _⟩
    (Nat.le_add_right _ _)).imp
  exact fun p hp => ⟨hp.1, Nat.le_trans hp.2 ht.2⟩

/-- An abstraction nests lambdas one deeper. -/
theorem ends_abstract (hK : K.Closed R) (v : Variable) {t : Term} {d : Nat}
    (ht : t.MadeWithin K d) : Ends (abstract R v t) K.Obstacle (MadeWithin K (d + 1)) := by
  unfold abstract
  apply (ends_close hK v ht).bind
  intro p hp
  exact .pure ⟨hp.1, Nat.succ_le_succ hp.2⟩

/-- An abstraction of such a term is such a term. -/
theorem ends_abstract_madeOf (hK : K.Closed R) (v : Variable) {t : Term} (ht : t.MadeOf K) :
    Ends (abstract R v t) K.Obstacle (MadeOf K) :=
  (ends_abstract hK v ⟨ht, Nat.le_refl _⟩).imp fun _ h => h.1

theorem ends_abstractAll (hK : K.Closed R) {t : Term} (ht : t.MadeOf K) :
    ∀ vs : List Variable, Ends (abstractAll R vs t) K.Obstacle (MadeOf K)
  | [] => .pure ht
  | v :: vs => (ends_abstractAll hK ht vs).bind fun _ hu => ends_abstract_madeOf hK v hu

/-- An argument put into a body makes such a term. -/
theorem ends_instantiate (hK : K.Closed R) (v : Variable) {b a : Term} (hb : b.MadeOf K)
    (ha : a.MadeOf K) : Ends (instantiate R v b a) K.Obstacle (MadeOf K) := by
  have reclose : ClosesAgain K (b.lambdaDepth + a.lambdaDepth) (abstract R) :=
    fun w _ _ _ hb' => ends_abstract hK w hb'
  unfold instantiate subst
  apply (ends_replace hK reclose ⟨ha, Nat.le_refl _⟩ ⟨hb, Nat.le_refl _⟩ (Nat.le_refl _)).bind
  intro o ho
  refine .pure ?_
  cases o with
  | none => exact hb
  | some u => exact (ho u rfl).1

end Term

/-! ### Rules -/

namespace Native

open Term

theorem ends_iterate (hK : K.Closed R) {f : Term} (hf : f.MadeOf K) : ∀ (n : Nat) {x : Term},
    x.MadeOf K → Ends (iterate R f x n) K.Obstacle (MadeOf K)
  | 0, _, hx => .pure hx
  | n + 1, _, hx =>
    (ends_apply_madeOf hK hf (.cons hx .nil)).bind fun _ hu => ends_iterate hK hf n hu

private theorem ends_demandTerms {parts : List Term} (h : MadeOfAll K parts) :
    Ends (demandTerms parts) K.Obstacle fun _ => True := by
  unfold demandTerms
  rw [h.firstLiteral_eq_none]
  exact .pure trivial

private theorem ends_some {x : Engine Term} (hx : Ends x K.Obstacle (MadeOf K)) :
    Ends (do return some (← x)) K.Obstacle (MadeOfAny K) := by
  apply hx.bind
  intro u hu
  refine .pure ?_
  rintro _ ⟨⟩
  exact hu

theorem ends_contract (hK : K.Closed R) {c : Native} (hc : K.native c) {as : List Term}
    (has : MadeOfAll K as) : Ends (c.contract R as) K.Obstacle (MadeOfAny K) := by
  have given {u : Term} (hu : u.MadeOf K) : Ends (pure (some u)) K.Obstacle (MadeOfAny K) := by
    refine .pure ?_
    rintro _ ⟨⟩
    exact hu
  unfold contract
  split
  · exact given has.1
  · exact given has.1
  · obtain ⟨hx, hy, hz, -⟩ := has
    apply (ends_demandTerms (.cons hx (.cons hy .nil))).bind
    intro _ _
    apply (ends_apply_madeOf hK hy (.cons hz .nil)).bind
    intro yz hyz
    exact ends_some (ends_apply_madeOf hK hx (.cons hz (.cons hyz .nil)))
  · obtain ⟨hx, hy, hz, -⟩ := has
    apply (ends_demandTerms (.cons hx (.cons hy .nil))).bind
    intro _ _
    apply (ends_apply_madeOf hK hy (.cons hz .nil)).bind
    intro yz hyz
    exact ends_some (ends_apply_madeOf hK hx (.cons hyz .nil))
  · obtain ⟨hx, hy, hz, -⟩ := has
    apply (ends_demandTerms (.cons hx .nil)).bind
    intro _ _
    exact ends_some (ends_apply_madeOf hK hx (.cons hz (.cons hy .nil)))
  · obtain ⟨hx, hy, -⟩ := has
    apply (ends_demandTerms (.cons hx .nil)).bind
    intro _ _
    exact ends_some (ends_apply_madeOf hK hx (.cons hy (.cons hy .nil)))
  · obtain ⟨hn, hf, hx, -⟩ := has
    apply (ends_demandTerms (.cons hf (.cons hn .nil))).bind
    intro _ _
    apply (ends_apply_madeOf hK hn (.cons hf (.cons hx .nil))).bind
    intro nfx hnfx
    exact ends_some (ends_apply_madeOf hK hf (.cons hnfx .nil))
  · exact ends_some (ends_iterate hK has.1 _ has.2.1)
  · exact absurd hc hK.toNumeral
  · exact absurd hc hK.lambdaMark
  · next u =>
    split
    · exact .pure nofun
    · next hlt =>
      refine ends_some (hK.contract u hc _ ?_ (madeOfAll_iff.mpr fun a ha => ?_))
      · exact List.length_take_of_le (Nat.not_lt.mp hlt)
      · exact madeOfAll_iff.mp has a (List.mem_of_mem_take ha)
  · exact .pure nofun

end Native

namespace Term

theorem ends_reduce (hK : K.Closed R) {h : Term} {as : List Term} (hh : h.MadeOf K)
    (has : MadeOfAll K as) : Ends (reduce R h as) K.Obstacle (MadeOfAny K) := by
  have rest {u : Term} (hu : u.MadeOf K) (n : Nat) :
      Ends (do return some (← apply R u (as.drop n))) K.Obstacle (MadeOfAny K) := by
    have given : MadeOfAll K (as.drop n) :=
      madeOfAll_iff.mpr fun a ha => madeOfAll_iff.mp has a (List.mem_of_mem_drop ha)
    apply (ends_apply_madeOf hK hu given).bind
    intro t ht
    refine .pure ?_
    rintro _ ⟨⟩
    exact ht
  unfold reduce
  split
  · next c =>
    apply (Native.ends_contract hK hh has).bind
    intro o ho
    cases o with
    | none => exact .pure nofun
    | some t =>
      have ht := ho t rfl
      cases t with
      | foreign x => exact ht.elim
      | _ => exact rest ht c.arity
  · next v b =>
    cases as with
    | nil => exact .pure nofun
    | cons a as =>
      apply (ends_instantiate (b := b) hK v hh has.1).bind
      intro u hu
      exact rest hu 1
  · next info d =>
    obtain ⟨m, hm⟩ := hK.arity info hh.1
    apply (Engine.ends_bound hm).bind
    intro n _
    split
    · exact .pure nofun
    · exact rest hh.2 0
  · exact .pure nofun

/-! ### Steps -/

/-- What a step may come to: such a term, for a cost of one at most, or nothing. -/
def MadeByStep (K : Kinds) (o : Option Stepped) : Prop :=
  ∀ r, o = some r → r.term.MadeOf K ∧ r.cost ≤ 1

/-- What a step in a list may come to. -/
def MadeByStepAmong (K : Kinds) (o : Option SteppedAmong) : Prop :=
  ∀ r, o = some r → MadeOfAll K r.terms ∧ r.cost ≤ 1

mutual

/-- A step of such a term gives such a term, for a cost of one at most. -/
theorem ends_step (hK : K.Closed R) : ∀ {t : Term}, t.MadeOf K →
    Ends (step R t) K.Obstacle (MadeByStep K)
  | var v, _ => by
    unfold step
    exact .pure nofun
  | native c, _ => by
    unfold step
    exact .pure nofun
  | foreign x, _ => by
    unfold step
    exact .pure nofun
  | lam v b, _ => by
    unfold step
    exact .pure nofun
  | named info d, ht => by
    unfold step
    refine .pure fun r hr => ?_
    split at hr
    · cases hr
      exact ⟨ht.2, Nat.zero_le 1⟩
    · cases hr
  | app n h as, ⟨hflat, hh, has⟩ => by
    unfold step
    apply (Engine.ends_isSettled n).bind
    intro known _
    split
    · exact .pure nofun
    · apply (ends_reduce hK hh has).bind
      intro o ho
      cases o with
      | some u =>
        refine .pure ?_
        rintro _ ⟨⟩
        exact ⟨ho u rfl, Nat.le_refl 1⟩
      | none =>
        apply (ends_step hK hh).bind
        intro o ho
        cases o with
        | some h' =>
          obtain ⟨hh', hcost⟩ := ho h' rfl
          apply (ends_apply_madeOf hK hh' has).bind
          intro u hu
          refine .pure ?_
          rintro _ ⟨⟩
          exact ⟨hu, hcost⟩
        | none =>
          apply (ends_stepAmong hK has).bind
          intro o ho
          cases o with
          | some as' =>
            obtain ⟨has', hcost⟩ := ho as' rfl
            apply (ends_apply_madeOf hK hh has').bind
            intro u hu
            refine .pure ?_
            rintro _ ⟨⟩
            exact ⟨hu, hcost⟩
          | none =>
            apply (Engine.ends_settle n).bind
            intro _ _
            exact .pure nofun

theorem ends_stepAmong (hK : K.Closed R) : ∀ {as : List Term}, MadeOfAll K as →
    Ends (stepAmong R as) K.Obstacle (MadeByStepAmong K)
  | [], _ => by
    unfold stepAmong
    exact .pure nofun
  | a :: as, ⟨ha, has⟩ => by
    unfold stepAmong
    apply (ends_step hK ha).bind
    intro o ho
    cases o with
    | some a' =>
      obtain ⟨ha', hcost⟩ := ho a' rfl
      refine .pure ?_
      rintro _ ⟨⟩
      exact ⟨⟨ha', has⟩, hcost⟩
    | none =>
      apply (ends_stepAmong hK has).bind
      intro o ho
      cases o with
      | some as' =>
        obtain ⟨has', hcost⟩ := ho as' rfl
        refine .pure ?_
        rintro _ ⟨⟩
        exact ⟨⟨ha, has'⟩, hcost⟩
      | none => exact .pure nofun

end

end Term

end Combinatory
