import Combinatory.Proofs.Invariant.Conversion
import Combinatory.Proofs.Making
import Combinatory.Proofs.Regular

/-!
# What compilation leaves

Where no hook replaces anything, a compilation that does not spend its budget leaves neither a
lambda nor a name, whatever the rules of the combinators are: its result is put together by applying
leaves (`Term.Bare`, `clean_compile`). It is headed by a variable or by one of `S`, `K` and `I` if
the term came down to one of these (`Term.Rooted`), and every canonical form comes down to a
variable (`rooted_canonical`). So no combinator comes back at the head of its own expansion.
-/

namespace Combinatory

namespace Term

/-! ### Applied leaves -/

mutual

/-- Whether a term is put together by applying variables, combinators and literals. -/
def Bare : Term → Prop
  | var _ => True
  | native _ => True
  | foreign _ => True
  | named _ _ => False
  | lam _ _ => False
  | app _ h as =>
    StandsAs h as ∧ h ≠ native .lambdaMark ∧ firstLiteral as = none ∧ Bare h ∧ AllBare as

/-- Whether all terms of a list are put together in this way. -/
def AllBare : List Term → Prop
  | [] => True
  | a :: as => Bare a ∧ AllBare as

end

/-- Whether a term comes down to a variable or one of `S`, `K` and `I`: below its lambdas and behind
its names, these are what heads it. -/
def Rooted : Term → Prop
  | var _ => True
  | native c => c.isBase = true
  | foreign _ => False
  | named _ d => Rooted d
  | lam _ b => Rooted b
  | app _ h _ => Rooted h

variable {R : Rules} {t u : Term} {ts us as : List Term} {v : Variable}

theorem allBare_iff : AllBare ts ↔ ∀ t ∈ ts, t.Bare := by
  induction ts with
  | nil => simp [AllBare]
  | cons t ts ih => rw [AllBare, ih, List.forall_mem_cons]

theorem allBare_append : AllBare (ts ++ us) ↔ AllBare ts ∧ AllBare us := by
  simp only [allBare_iff, List.forall_mem_append]

theorem firstLiteral_eq_none_iff : firstLiteral ts = none ↔ ∀ t ∈ ts, t.literal? = none :=
  List.findSome?_eq_none_iff

theorem firstLiteral_append :
    firstLiteral (ts ++ us) = none ↔ firstLiteral ts = none ∧ firstLiteral us = none := by
  simp only [firstLiteral_eq_none_iff, List.forall_mem_append]

/-- What is fed no more arguments comes down to a variable. -/
theorem rooted_of_awaitsArgs : ∀ {t : Term}, t.awaitsArgs = false → t.Rooted
  | var _, _ => trivial
  | named _ d, h => rooted_of_awaitsArgs (t := d) h
  | app _ h _, ha => rooted_of_awaitsArgs (t := h) ha
  | native _, h | foreign _, h | lam _ _, h => nomatch h

/-! ### Applying -/

/-- Where no hook of the user replaces anything, none does before anything but a numeral. -/
theorem replacement_of_unmet (hR : R.hookless = true) {c : Native} (hmark : c ≠ .lambdaMark)
    {a : Term} (unmet : c = .successor → ∀ n, a ≠ numeral n) :
    c.replacement R a = pure none := by
  cases c with
  | successor =>
    unfold Native.replacement
    dsimp only
    split
    · next n => exact absurd rfl (unmet rfl n)
    · rfl
  | lambdaMark => exact absurd rfl hmark
  | user u =>
    unfold Native.replacement
    dsimp only
    rw [R.replacement_none hR u a, ite_self]
  | _ => rfl

/-- The successor replaces itself and a numeral by a numeral. -/
private theorem replacement_of_hookless (hR : R.hookless = true) (c : Native) (a : Term) :
    GivesOnly (c.replacement R a) fun o => c ≠ .lambdaMark ∧
      (o = none ∧ (c = .successor → ∀ n, a ≠ numeral n) ∨ ∃ n, o = some (numeral n)) := by
  by_cases hmark : c = .lambdaMark
  · subst hmark
    exact .throw trivial
  · by_cases unmet : c = .successor → ∀ n, a ≠ numeral n
    · rw [replacement_of_unmet hR hmark unmet]
      exact .pure ⟨hmark, .inl ⟨rfl, unmet⟩⟩
    · obtain ⟨rfl, n, rfl⟩ : c = .successor ∧ ∃ n, a = numeral n := by simpa using unmet
      unfold Native.replacement
      dsimp only
      split
      · exact .pure ⟨hmark, .inr ⟨_, rfl⟩⟩
      · exact .throw trivial

private theorem bare_extend (hR : R.hookless = true) : ∀ (as : List Term) {t : Term},
    t.Bare → AllBare as → firstLiteral as = none →
      GivesOnly (extend R t as) Bare
  | [], t, ht, _, _ => by
    unfold extend
    exact .pure ht
  | a :: as, t, ht, has, hlit => by
    have headed {g : Term} {bs : List Term} (hg : (app 0 g bs).Bare) :
        GivesOnly (Engine.node g bs) Bare := by
      apply (Engine.ends_node g bs).imp
      rintro _ ⟨n, rfl⟩
      exact hg
    unfold extend
    split
    · next n h bs =>
      -- the arguments are merged, and the first of them stays the first
      obtain ⟨hst, hmark, hbs, hh, hargs⟩ := ht
      refine headed ⟨⟨?_, hst.flat, fun hsucc n => ?_⟩, hmark,
        firstLiteral_append.mpr ⟨hbs, hlit⟩, hh, allBare_append.mpr ⟨hargs, has⟩⟩
      · exact List.append_ne_nil_of_left_ne_nil hst.nonempty (a :: as)
      · obtain ⟨b, bs, rfl⟩ := List.exists_cons_of_ne_nil hst.nonempty
        exact hst.unmet hsucc n
    · next c =>
      apply (replacement_of_hookless hR c a).bind
      rintro o ⟨hmark, ⟨rfl, unmet⟩ | ⟨n, rfl⟩⟩
      · refine headed ⟨⟨List.cons_ne_nil a as, nofun, fun hsucc n h => ?_⟩,
          fun h => hmark (by injection h), hlit, trivial, has⟩
        exact unmet (by injection hsucc) n (by injection h)
      · refine bare_extend hR as (t := numeral n) trivial has.2 ?_
        rw [firstLiteral_eq_none_iff] at hlit ⊢
        exact fun t ht => hlit t (List.mem_cons_of_mem a ht)
    · next happ hnat =>
      exact headed ⟨⟨List.cons_ne_nil a as, happ, fun h => (hnat _ h).elim⟩,
        fun h => (hnat _ h).elim, hlit, ht, has⟩

/-- Applying such terms gives such a term. -/
theorem bare_apply (hR : R.hookless = true) (ht : t.Bare) (has : AllBare as) :
    GivesOnly (apply R t as) Bare := by
  unfold apply
  split
  · exact .throw trivial
  · next hlit => exact bare_extend hR as ht has hlit

/-- What comes down to a variable, `S`, `K` or `I` still does when it is applied, and so heads an
application. -/
private theorem rooted_extend (ht : t.Rooted) (a : Term) (as : List Term) :
    GivesOnly (extend R t (a :: as)) fun u => u.Rooted ∧ u.isApp = true := by
  have headed {g : Term} {bs : List Term} (hg : g.Rooted) :
      GivesOnly (Engine.node g bs) fun u => u.Rooted ∧ u.isApp = true := by
    apply (Engine.ends_node g bs).imp
    rintro _ ⟨n, rfl⟩
    exact ⟨hg, rfl⟩
  cases t with
  | app n h bs =>
    rw [extend_app]
    exact headed (g := h) ht
  | native c =>
    have plain : c.hooked = false := by
      cases c <;> first | rfl | cases ht
    rw [extend_native R plain]
    exact headed ht
  | var v =>
    rw [extend_var]
    exact headed trivial
  | lam v b =>
    rw [extend_lam]
    exact headed (g := lam v b) ht
  | named info d =>
    unfold extend
    exact headed (g := named info d) ht
  | foreign x => exact ht.elim

theorem rooted_apply (ht : t.Rooted) : GivesOnly (apply R t as) Rooted := by
  unfold apply
  split
  · exact .throw trivial
  · cases as with
    | nil =>
      unfold extend
      exact .pure ht
    | cons a as => exact (rooted_extend ht a as).imp fun _ h => h.1

/-- It heads an application even if it was none. -/
theorem isApp_apply_of_rooted (ht : t.Rooted) (hne : as ≠ []) :
    GivesOnly (apply R t as) fun u => u.isApp = true := by
  unfold apply
  split
  · exact .throw trivial
  · obtain ⟨a, as, rfl⟩ := List.exists_cons_of_ne_nil hne
    exact (rooted_extend ht a as).imp fun _ h => h.2

/-- Applying keeps both. -/
theorem clean_apply (hR : R.hookless = true) (ht : t.Bare) (has : AllBare as) :
    GivesOnly (apply R t as) fun u => u.Bare ∧ (t.Rooted → u.Rooted) := by
  by_cases hroot : t.Rooted
  · exact ((bare_apply hR ht has).and (rooted_apply hroot)).imp fun _ hu => ⟨hu.1, fun _ => hu.2⟩
  · exact (bare_apply hR ht has).imp fun _ h => ⟨h, fun h => absurd h hroot⟩

/-- The front part of an application is headed as the whole. -/
private theorem clean_split (hR : R.hookless = true) {h : Term} (hh : h.Bare)
    (has : AllBare as) :
    GivesOnly (split R h as) fun p => p.1.Bare ∧ (h.Rooted → p.1.Rooted) := by
  unfold split
  split
  · have front : AllBare as.dropLast := by
      rw [allBare_iff] at has ⊢
      exact fun a ha => has a (List.dropLast_subset as ha)
    exact (clean_apply hR hh front).bind fun _ hf => .pure hf
  · exact .pure ⟨hh, id⟩

/-! ### Canonical forms -/

section

variable {reclose : Variable → Term → Engine Term}

/-- Another variable in the place of one changes nothing of what a term comes down to. -/
private theorem rooted_replace (hre : ∀ w b, Rooted b → GivesOnly (reclose w b) Rooted)
    (v w : Variable) : ∀ {t : Term}, t.Rooted →
      GivesOnly (replace R reclose t v (var w)) (IfAny Rooted)
  | var x, _ => by
    unfold replace
    refine .pure ?_
    split
    · exact .some trivial
    · exact .none
  | native _, _ => by
    unfold replace
    exact .pure .none
  | foreign _, ht => ht.elim
  | named _ d, ht => by
    unfold replace
    exact rooted_replace hre v w (t := d) ht
  | lam x b, ht => by
    unfold replace
    split
    · exact .pure .none
    · apply (rooted_replace hre v w (t := b) ht).bind
      intro o ho
      cases o with
      | none => exact .pure .none
      | some b' => exact (hre x b' (ho b' rfl)).bind fun _ hu => .pure (.some hu)
  | app n h as, ht => by
    unfold replace
    apply (rooted_replace hre v w (t := h) ht).bind
    intro h' hh
    apply (givesOnly_anything _).bind
    intro as' _
    split
    · exact .pure .none
    · exact (rooted_apply (hh.getD (show h.Rooted from ht))).bind fun _ hu => .pure (.some hu)

end

private theorem rooted_closeWithin (depth : Nat) (v : Variable) (ht : t.Rooted) :
    GivesOnly (closeWithin R depth v t) fun p => p.2.Rooted := by
  have noLiteral : ∀ x, t = foreign x → False := by
    rintro x rfl
    exact ht
  induction depth generalizing v t with
  | zero =>
    rw [closeWithin.eq_2 _ _ _ noLiteral]
    apply (Engine.ends_freshVariable v.name).bind
    intro w _
    exact (rooted_replace (fun _ _ _ => .throw trivial) v w ht).bind fun _ ho => .pure (ho.getD ht)
  | succ depth ih =>
    rw [closeWithin.eq_3 _ _ _ _ noLiteral]
    apply (Engine.ends_freshVariable v.name).bind
    intro w _
    refine (rooted_replace (fun u b hb => ?_) v w ht).bind fun _ ho => .pure (ho.getD ht)
    refine (ih u hb ?_).bind fun p hp => .pure hp
    rintro x rfl
    exact hb

private theorem rooted_abstractAll (ht : t.Rooted) :
    ∀ vs : List Variable, GivesOnly (abstractAll R vs t) Rooted
  | [] => .pure ht
  | v :: vs => by
    apply (rooted_abstractAll ht vs).bind
    intro u hu
    unfold abstract
    exact (rooted_closeWithin u.rebuildDepth v hu).bind fun p hp => .pure hp

private theorem rooted_searchFrom (maxSteps : Amount) (left : Nat) (t : Term)
    (probes : List Variable) (spent : Nat) :
    GivesOnly (searchFrom R maxSteps t probes spent left) fun p =>
      ∀ form, p.1 = some form → form.term.Rooted := by
  induction left generalizing t probes spent with
  | zero => exact .pure fun _ h => (Option.some_ne_none _ h.symm).elim
  | succ left ih =>
    unfold searchFrom
    apply (givesOnly_anything _).bind
    intro out _
    dsimp only
    split
    · exact .pure fun _ h => (Option.some_ne_none _ h.symm).elim
    · split
      · next hdone =>
        have rooted : out.term.Rooted := rooted_of_awaitsArgs (by simpa using hdone)
        apply Engine.Ends.bind (P := fun form => form.term.Rooted)
        · unfold closeProbes
          apply (givesOnly_anything _).bind
          intro symbols _
          exact (rooted_abstractAll rooted probes).bind fun _ hu => .pure hu
        · intro form hform
          refine .pure ?_
          rintro _ ⟨⟩
          exact hform
      · apply (givesOnly_anything _).bind
        intro probe _
        apply (givesOnly_anything _).bind
        exact fun u _ => ih u _ _

/-- Nothing is guessed of a combinator. -/
private theorem guess_native (limits : Budget) (c : Native) (n : Nat) :
    GivesOnly (guess R limits (native c) n) fun o => o = none := by
  unfold guess
  exact .pure rfl

/-- The canonical form of a combinator comes down to a variable. -/
theorem rooted_canonical (limits : Budget) (c : Native) :
    GivesOnly (canonical R limits (native c)) (IfAny Rooted) := by
  unfold canonical canonicalize search
  simp only [bind_assoc]
  apply (givesOnly_anything _).bind
  intro args _
  apply (rooted_searchFrom limits.steps args.toNat (native c) [] 0).bind
  rintro ⟨o, steps⟩ ho
  cases o with
  | some form =>
    refine .pure ?_
    rintro _ ⟨⟩
    exact ho form rfl
  | none =>
    simp only [Bool.false_eq_true, if_false, bind_assoc, pure_bind]
    apply (guess_native limits c patience).bind
    rintro _ rfl
    exact .pure .none

/-! ### Compilation -/

/-- What is left by a compilation that does not spend its budget: the value is put together by
applying leaves, and comes down to a variable, `S`, `K` or `I` if the term did. -/
def Clean (t : Term) {budget : Nat} (c : Compiled Term budget) : Prop :=
  0 < c.left → c.value.Bare ∧ (t.Rooted → c.value.Rooted)

/-- Whether every compilation within a budget is clean. -/
private def CleanWithin (R : Rules) (limits : Budget) (budget : Nat) : Prop :=
  ∀ (expanding : List Native) (t : Term),
    GivesOnly (compile R limits expanding budget t) (Clean t)

variable {limits : Budget} {expanding : List Native} {budget : Nat}

/-- One of `S`, `K` and `I` applied to compiled terms is clean. -/
private theorem clean_base (hR : R.hookless = true) {c : Native} (hc : c.isBase = true)
    {left : Nat} (h : left ≤ budget) (has : 0 < left → AllBare as) :
    GivesOnly (do return (⟨← apply R (native c) as, left, h⟩ : Compiled Term budget))
      (Clean t) := by
  rcases Nat.eq_zero_or_pos left with rfl | hpos
  · exact (givesOnly_anything _).bind fun u _ => .pure fun h => nomatch h
  · exact (clean_apply hR (t := native c) trivial (has hpos)).bind fun u hu =>
      .pure fun _ => ⟨hu.1, fun _ => hu.2 hc⟩

/-- The elimination of a variable from both halves of an application is clean. -/
private theorem clean_shared (hR : R.hookless = true) {left : Nat} (h : left ≤ budget)
    (ih : ∀ l ≤ left, CleanWithin R limits l) (front last : Term) :
    GivesOnly (do
      let (v₁, front) ← close R v front
      let front ← eliminate R limits expanding left v₁ front
      let (v₂, last) ← close R v last
      let last ← eliminate R limits expanding front.left v₂ last
      return (⟨← apply R (native .S) [front.value, last.value], last.left,
        Nat.le_trans last.left_le (Nat.le_trans front.left_le h)⟩ : Compiled Term budget))
      (Clean t) := by
  apply (givesOnly_anything _).bind
  rintro ⟨v₁, f⟩ -
  dsimp only
  rw [← compile_lam]
  apply (ih left (Nat.le_refl left) expanding (lam v₁ f)).bind
  intro f' hf'
  apply (givesOnly_anything _).bind
  rintro ⟨v₂, a⟩ -
  dsimp only
  rw [← compile_lam]
  apply (ih f'.left f'.left_le expanding (lam v₂ a)).bind
  intro a' ha'
  refine clean_base hR rfl _ fun hpos => ⟨?_, (ha' hpos).1, trivial⟩
  exact (hf' (Nat.lt_of_lt_of_le hpos a'.left_le)).1

/-- A combinator does not mention a variable, and of a literal it is not known. -/
private theorem not_mentions_leaf (v : Variable) (t : Term) (ht : t.Bare)
    (hvar : ∀ w, t ≠ var w) (happ : t.isApp = false) :
    GivesOnly (mentions v t) fun b => b = false := by
  unfold mentions counted
  cases t with
  | native c => exact .pure rfl
  | foreign x =>
    split
    · exact .bind (P := fun _ => False) (.throw trivial) nofun
    · exact .pure rfl
  | var w => exact absurd rfl (hvar w)
  | app n h as => cases happ
  | lam _ _ | named _ _ => exact ht.elim

/-- The elimination of a variable from a body is clean, if the compilation of the body is and so is
every compilation within less. -/
private theorem clean_eliminate (hR : R.hookless = true) (ih : ∀ l < budget, CleanWithin R limits l)
    {body : Term} (hbody : GivesOnly (compile R limits expanding budget body) (Clean body)) :
    GivesOnly (eliminate R limits expanding budget v body) (Clean (lam v body)) := by
  unfold eliminate
  apply hbody.bind
  intro c hc
  split
  · exact (givesOnly_anything _).bind fun _ _ => .pure fun h => (Nat.lt_irrefl 0 h).elim
  · next left hleft =>
    have hl : left < budget := by
      have := c.left_le
      omega
    obtain ⟨happ, hroot⟩ := hc (by omega)
    have constant : GivesOnly (do
        return (⟨← apply R (native .K) [c.value], left, Nat.le_of_lt hl⟩ : Compiled Term budget))
        (Clean (lam v body)) :=
      clean_base hR rfl _ fun _ => ⟨happ, trivial⟩
    dsimp only
    split
    · split
      · exact .pure fun _ => ⟨trivial, fun _ => rfl⟩
      · exact constant
    · next n hd as hval =>
      rw [hval] at happ hroot
      apply (givesOnly_anything _).bind
      intro mentioned _
      split
      · exact constant
      · apply (clean_split hR happ.2.2.2.1 happ.2.2.2.2).bind
        rintro ⟨front, last⟩ ⟨-, hfront⟩
        dsimp only at hfront ⊢
        apply (givesOnly_anything _).bind
        intro ends _
        split
        · -- the front part is headed as the body is
          apply (ih left hl expanding front).bind
          refine fun d hd => .pure fun hpos => ?_
          obtain ⟨hdapp, hdroot⟩ := hd hpos
          exact ⟨hdapp, fun h => hdroot (hfront (hroot h))⟩
        · exact clean_shared hR (Nat.le_of_lt hl) (fun l h => ih l (Nat.lt_of_le_of_lt h hl)) _ _
    · next hvar hnotApp =>
      have leaf : c.value.isApp = false := by
        cases hval : c.value with
        | app n h as => exact (hnotApp n h as hval).elim
        | _ => rfl
      apply (not_mentions_leaf v c.value happ (fun w h => hvar w h) leaf).bind
      rintro _ rfl
      exact constant

mutual

/-- Compilation within a budget is clean, if every compilation within less is. -/
private theorem clean_compile_of_less (hR : R.hookless = true)
    (ih : ∀ l < budget, CleanWithin R limits l) (expanding : List Native) : ∀ t : Term,
      GivesOnly (compile R limits expanding budget t) (Clean t)
  | var v => by
    unfold compile
    exact .pure fun _ => ⟨trivial, id⟩
  | foreign _ => by
    unfold compile
    exact .pure fun _ => ⟨trivial, id⟩
  | native c => by
    unfold compile
    split
    · exact .pure fun _ => ⟨trivial, id⟩
    · split
      · exact .pure fun _ => ⟨trivial, id⟩
      · next left =>
        apply (rooted_canonical limits c).bind
        intro o ho
        cases o with
        | none => exact .pure fun _ => ⟨trivial, id⟩
        | some form =>
          apply (ih left (Nat.lt_succ_self left) (c :: expanding) form).bind
          refine fun d hd => .pure fun hpos => ?_
          obtain ⟨hdapp, hdroot⟩ := hd hpos
          exact ⟨hdapp, fun _ => hdroot (ho form rfl)⟩
  | named info d => by
    unfold compile
    exact clean_compile_of_less hR ih expanding d
  | lam v b => by
    rw [compile_lam]
    exact clean_eliminate hR ih (clean_compile_of_less hR ih expanding b)
  | app n h as => by
    unfold compile
    split
    · next hzero =>
      refine .pure fun hpos => ?_
      exact absurd hzero (Nat.pos_iff_ne_zero.mp hpos)
    · apply (clean_compile_of_less hR ih expanding h).bind
      intro h' hh
      apply (clean_compileAll_of_less hR ih expanding as h'.left_le).bind
      intro as' has
      rcases Nat.eq_zero_or_pos as'.left with hzero | hpos
      · refine (givesOnly_anything _).bind fun u _ => .pure fun h => ?_
        exact absurd hzero (Nat.pos_iff_ne_zero.mp h)
      · obtain ⟨happ, hroot⟩ := hh (Nat.lt_of_lt_of_le hpos as'.left_le)
        exact (clean_apply hR happ (has hpos)).bind fun u hu =>
          .pure fun _ => ⟨hu.1, fun h => hu.2 (hroot h)⟩

/-- Compilation of some terms within no more than a budget leaves such terms, if every compilation
within less than the budget is clean. -/
private theorem clean_compileAll_of_less (hR : R.hookless = true)
    (ih : ∀ l < budget, CleanWithin R limits l) (expanding : List Native) : ∀ (ts : List Term)
    {b : Nat}, b ≤ budget →
      GivesOnly (compileAll R limits expanding b ts) fun c => 0 < c.left → AllBare c.value
  | [], b, _ => by
    unfold compileAll
    exact .pure fun _ => trivial
  | t :: ts, b, hb => by
    have first : GivesOnly (compile R limits expanding b t) (Clean t) := by
      rcases Nat.lt_or_eq_of_le hb with hlt | heq
      · exact ih b hlt expanding t
      · exact heq ▸ clean_compile_of_less hR ih expanding t
    unfold compileAll
    apply first.bind
    intro t' ht
    apply (clean_compileAll_of_less hR ih expanding ts (Nat.le_trans t'.left_le hb)).bind
    exact fun ts' hts => .pure fun hpos => ⟨(ht (Nat.lt_of_lt_of_le hpos ts'.left_le)).1, hts hpos⟩

end

/-- Every compilation is clean. -/
theorem clean_compile (hR : R.hookless = true) (limits : Budget) (expanding : List Native)
    (budget : Nat) (t : Term) : GivesOnly (compile R limits expanding budget t) (Clean t) := by
  induction budget using Nat.strong_induction_on generalizing expanding t with
  | _ budget ih =>
    exact clean_compile_of_less hR (fun l hl expanding t => ih l hl expanding t) expanding t

/-- So is that of a list of terms. -/
theorem clean_compileAll (hR : R.hookless = true) (limits : Budget) (expanding : List Native)
    (budget : Nat) (ts : List Term) :
    GivesOnly (compileAll R limits expanding budget ts) fun c => 0 < c.left → AllBare c.value :=
  clean_compileAll_of_less hR (fun l _ expanding t => clean_compile hR limits expanding l t)
    expanding ts (Nat.le_refl budget)

end Term

end Combinatory
