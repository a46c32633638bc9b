import Combinatory.Proofs.Counting
import Combinatory.Proofs.Repetition
import Combinatory.Proofs.Rounds

/-!
# The successor of a computed numeral

The successor has two ways to a number. On one argument it waits until the argument has become a
numeral, and is then replaced by the next one; on three its rule fires first, and the argument is
run in front of the other two. Both ways meet: a term that runs to a numeral does to two more
arguments what the numeral does (`Stage.Halts.iterated`). The rule that fires at the head of a term
fires at the head of the term with more arguments, and the only applications that wait and yet
become numerals are those of the successor.
-/

namespace Combinatory

open Relation (ReflTransGen)

variable {R : Rules} {s s₁ : Store} {t u v h : Term} {as bs : List Term} {m m₀ k : Nat}

/-! ### More arguments -/

namespace Native

/-- A combinator that has all its arguments does not look at further ones. -/
theorem contract_append {c : Native} (hc : c.isPure = true)
    (hr : c.contract R as s = .ok (some v) s₁) (bs : List Term) :
    c.contract R (as ++ bs) s = .ok (some v) s₁ := by
  unfold contract at hr
  split at hr
  case h_12 => cases hr
  case h_9 | h_10 | h_11 => cases hc
  all_goals exact hr

/-- Nor does it leave others over. -/
theorem arity_le_of_contract {c : Native} (hr : c.contract R as s = .ok (some v) s₁) :
    c.arity ≤ as.length := by
  by_contra hlt
  rw [Term.contract_of_lt (Nat.lt_of_not_le hlt)] at hr
  cases hr

end Native

namespace Term

/-- A term with more arguments, as an application of a given identity. -/
def withMore (m : Nat) (bs : List Term) : Term → Term
  | app _ h as => app m h (as ++ bs)
  | t => app m t bs

/-- Applying to a variable and others puts them behind the arguments. -/
theorem extend_eq_withMore (ht : t.MadeOf .pure) (f : Variable) (bs : List Term) :
    extend R t (var f :: bs) s = .ok (t.withMore s.nextNode (var f :: bs)) s.grown := by
  cases t with
  | app m h as =>
    rw [extend_app]
    rfl
  | native c =>
    have alone : c.replacement R (var f) = pure none := by
      cases c <;> first | rfl | cases ht
    rw [extend, alone, pure_bind]
    rfl
  | foreign x => exact ht.elim
  | var v =>
    rw [extend_var]
    rfl
  | lam v b =>
    rw [extend_lam]
    rfl
  | named info d =>
    rw [extend]
    · rfl
    all_goals simp

/-- Whether a computation is another one with more arguments: either what the other gives is
extended by them, or the application that it gives is made with them at once. -/
def Extends (R : Rules) (bs : List Term) (v : Term) (s₁ : Store)
    (r : EStateM.Result Failure Store Term) : Prop :=
  r = extend R v bs s₁ ∨ ∃ m h cs, v = app m h cs ∧ r = .ok (app m h (cs ++ bs)) s₁

theorem Extends.of_eq {r r' : EStateM.Result Failure Store Term} (h : Extends R bs v s₁ r)
    (heq : r' = r) : Extends R bs v s₁ r' :=
  heq ▸ h

/-- A term is applied to all arguments at once or to some after the others. -/
theorem extends_extend : ∀ (as : List Term) {t : Term} {s : Store}, extend R t as s = .ok v s₁ →
    Extends R bs v s₁ (extend R t (as ++ bs) s)
  | [], t, s, hv => by
    rw [extend] at hv
    cases hv
    exact .inl rfl
  | a :: as, t, s, hv => by
    rw [List.cons_append]
    unfold extend at hv ⊢
    split at hv
    · next cs =>
      cases hv
      refine .inr ⟨_, _, _, rfl, ?_⟩
      rw [List.append_assoc, List.cons_append]
      rfl
    · next c =>
      obtain ⟨o, s', ho, hv⟩ := Engine.bind_ok_iff.mp hv
      cases o with
      | some r => exact (extends_extend as hv).of_eq (Engine.bind_of_ok ho)
      | none =>
        cases hv
        exact .inr ⟨_, _, _, rfl, Engine.bind_of_ok ho⟩
    · cases hv
      exact .inr ⟨_, _, _, rfl, rfl⟩

/-- What a combinator makes of its arguments is applied to those that are left. -/
theorem reduce_native {c : Native} (hu : u.MadeOf .pure)
    (hr : c.contract R as s = .ok (some u) s₁) :
    reduce R (native c) as s = (do return some (← apply R u (as.drop c.arity))) s₁ := by
  unfold reduce
  cases u with
  | foreign x => exact hu.elim
  | _ => exact Engine.bind_of_ok hr

/-- A head that fires makes a term and applies it to the arguments that are left. It does so
too when there are more arguments, and then there are more left. -/
theorem exists_of_reduce (hh : h.MadeOf .pure) (has : MadeOfAll .pure as)
    (hr : reduce R h as s = .ok (some v) s₁) :
    ∃ u cs s₀, MadeOfAll .pure cs ∧ apply R u cs s₀ = .ok v s₁ ∧ ∀ bs, MadeOfAll .pure bs →
      reduce R h (as ++ bs) s = (do return some (← apply R u (cs ++ bs))) s₀ := by
  cases h with
  | native c =>
    obtain ⟨o, s₀, ho, hrest⟩ := Engine.bind_ok_iff.mp hr
    cases o with
    | none => cases hrest
    | some u =>
      have hu : u.MadeOf .pure :=
        (Native.ends_contract (Kinds.closed_pure R) hh has).of_ok ho u rfl
      rw [reduce_native hu ho] at hr
      obtain ⟨_, _, hv, hr⟩ := Engine.bind_ok_iff.mp hr
      cases hr
      have left : MadeOfAll .pure (as.drop c.arity) :=
        madeOfAll_iff.mpr fun a ha => madeOfAll_iff.mp has a (List.mem_of_mem_drop ha)
      refine ⟨u, _, s₀, left, hv, fun bs _ => ?_⟩
      rw [reduce_native hu (Native.contract_append hh ho bs),
        List.drop_append_of_le_length (Native.arity_le_of_contract ho)]
  | lam v b =>
    cases as with
    | nil => cases hr
    | cons a as =>
      obtain ⟨u, s₀, hu, hr⟩ := Engine.bind_ok_iff.mp hr
      obtain ⟨_, _, hv, hr⟩ := Engine.bind_ok_iff.mp hr
      cases hr
      exact ⟨u, as, s₀, has.2, hv, fun bs _ => Engine.bind_of_ok hu⟩
  | named info d =>
    obtain ⟨⟨n, hn⟩, -⟩ := hh
    have bound : Engine.bound info.arity = pure (n : Int) := by
      rw [Engine.bound, hn]
      rfl
    unfold reduce at hr
    dsimp only at hr
    rw [bound, pure_bind] at hr
    split at hr
    · cases hr
    · next hlt =>
      obtain ⟨_, _, hv, hr⟩ := Engine.bind_ok_iff.mp hr
      cases hr
      refine ⟨d, as, s, has, hv, fun bs _ => ?_⟩
      have enough : ¬ ((as ++ bs).length : Int) < n := by
        rw [List.length_append]
        omega
      unfold reduce
      dsimp only
      rw [bound, pure_bind, if_neg enough]
  | foreign x => exact hh.elim
  | var v => cases hr
  | app m h as => cases hr

/-- What a head gives on arguments is extended when there are more of them. -/
theorem extends_reduce (hh : h.MadeOf .pure) (has : MadeOfAll .pure as)
    (hr : reduce R h as s = .ok (some v) s₁) (hbs : MadeOfAll .pure bs) :
    ∃ r, Extends R bs v s₁ r ∧
      ∀ t s₂, r = .ok t s₂ → reduce R h (as ++ bs) s = .ok (some t) s₂ := by
  obtain ⟨u, cs, s₀, hcs, hv, more⟩ := exists_of_reduce hh has hr
  rw [apply_eq_extend R u hcs.firstLiteral_eq_none] at hv
  refine ⟨_, extends_extend cs hv, fun t s₂ ht => ?_⟩
  rw [more bs hbs, apply_eq_extend R u (madeOfAll_append.mpr ⟨hcs, hbs⟩).firstLiteral_eq_none]
  exact Engine.bind_ok_iff.mpr ⟨t, s₂, ht, rfl⟩

/-! ### Applications that wait -/

/-- Whether a head waits is a matter of how many arguments there are. -/
theorem Waits.of_length_eq (hw : h.Waits as) (hlen : bs.length = as.length) : h.Waits bs := by
  cases h with
  | native c =>
    have lt : as.length < c.arity := hw
    exact Nat.lt_of_le_of_lt (Nat.le_of_eq hlen) lt
  | lam v b =>
    obtain rfl : as = [] := hw
    exact List.length_eq_zero_iff.mp hlen
  | named info d =>
    obtain ⟨n, hn, hlt⟩ := hw
    exact ⟨n, hn, hlen ▸ hlt⟩
  | _ => trivial

/-- A step in a list leaves its length alone. -/
theorem length_stepAmong {r : SteppedAmong} {s' : Store} :
    ∀ {as : List Term} {s : Store}, stepAmong R as s = .ok (some r) s' →
      r.terms.length = as.length
  | [], s, hr => by
    rw [stepAmong] at hr
    cases hr
  | a :: as, s, hr => by
    rw [stepAmong] at hr
    obtain ⟨o, s₁, -, hr⟩ := Engine.bind_ok_iff.mp hr
    cases o with
    | some a' =>
      cases hr
      rfl
    | none =>
      obtain ⟨o, s₂, has, hr⟩ := Engine.bind_ok_iff.mp hr
      cases o with
      | none => cases hr
      | some as' =>
        cases hr
        exact congrArg (· + 1) (length_stepAmong has)

/-- Whether a head waits for more than one argument, and is not the successor on a single one. -/
structure Blocks (h : Term) (as : List Term) : Prop where
  waits : h.Waits as
  proper : h = native .successor → as.length ≠ 1

/-- What is applied to while it waits still waits, and only the successor gives way to a numeral. -/
theorem Blocks.of_apply (hflat : h.isApp = false) (hh : h.MadeOf .pure) (hb : h.Blocks as)
    (hne : as ≠ []) (happly : apply R h as s = .ok v s₁) :
    ∃ m g bs, v = app m g bs ∧ g.Blocks bs := by
  obtain ⟨a, as, rfl⟩ := List.exists_cons_of_ne_nil hne
  have alone : ∀ m, ∃ m' g bs, app m h (a :: as) = app m' g bs ∧ g.Blocks bs :=
    fun m => ⟨m, h, _, rfl, hb⟩
  unfold apply at happly
  cases hl : firstLiteral (a :: as) with
  | some l =>
    rw [hl] at happly
    cases happly
  | none =>
    rw [hl] at happly
    replace happly : extend R h (a :: as) s = .ok v s₁ := happly
    unfold extend at happly
    split at happly
    · cases hflat
    · next c =>
      obtain ⟨o, s', ho, happly⟩ := Engine.bind_ok_iff.mp happly
      cases o with
      | none =>
        cases happly
        exact alone _
      | some r =>
        have quiet : R.quiet (native c) = true := MadeOf.quiet (Kinds.closed_pure R) hh
        obtain ⟨n, rfl⟩ := Native.numeral_of_replacement quiet ho
        have hc : c = .successor := by
          by_contra hc
          have hooked : c.hooked = false := by
            cases c <;> first | rfl | exact absurd rfl hc | cases hh
          rw [Native.replacement_eq_none R hooked] at ho
          cases ho
        subst hc
        -- the successor waits on two arguments, of which one is left
        have two : (a :: as).length < 3 := hb.waits
        have proper := hb.proper rfl
        rw [List.length_cons] at two proper
        obtain ⟨b, rfl⟩ := List.length_eq_one_iff.mp (show as.length = 1 by omega)
        cases happly
        exact ⟨_, _, _, rfl, Nat.lt_succ_self 1, nofun⟩
    · cases happly
      exact alone _

end Term

namespace Stage

open Term (native numeral var app)

variable {x y : Stage} {budget : Int} {N n : Nat} {c : Combination} {p : Twins}

/-- An application whose head waits never becomes a numeral, unless it is one of the successor on a
single argument. -/
theorem not_finishes_of_blocks (made : x.term.MadeOf .pure) (hx : x.term = app m h as)
    (hb : h.Blocks as) : ¬ x.Finishes R budget N n (.native (.numeral k)) := by
  induction N generalizing x m h as with
  | zero =>
    intro hfin
    cases hfin with
    | here _ forms => cases hx.symm.trans forms.eq_numeral
  | succ N ih =>
    intro hfin
    cases hfin with
    | @round _ r s _ _ _ _ hstep rest =>
      rw [hx] at made hstep
      have hflat : h.isApp = false := Bool.eq_false_iff.mpr made.1
      obtain ⟨as', s₁, hargs, happly, -⟩ :=
        Term.exists_of_step_of_waits hflat made.2.1 hb.waits hstep
      have hlen := Term.length_stepAmong hargs
      have hne : as'.terms ≠ [] := by
        rintro hnil
        rw [hnil] at hlen
        rw [List.length_eq_zero_iff.mp hlen.symm, Term.stepAmong] at hargs
        cases hargs
      have blocks : h.Blocks as'.terms :=
        ⟨hb.waits.of_length_eq hlen, fun hs => hlen ▸ hb.proper hs⟩
      obtain ⟨m', g, bs, hv, hg⟩ := blocks.of_apply hflat made.2.1 hne happly
      have made' := ((Term.ends_step (Kinds.closed_pure R) made).of_ok hstep r rfl).1
      exact ih made' hv hg rest

/-! ### What a term that becomes a numeral does to two arguments -/

/-- A run from a stage ends with a combination within some budget. -/
def Halts (R : Rules) (x : Stage) (c : Combination) : Prop :=
  ∃ budget N n, x.Finishes R budget N n c

/-- A run that ends after a step ends before it. -/
theorem Halts.of_step {r : Term.Stepped} (h : (x.after r s).Halts R c)
    (hstep : x.term.step R x.store = .ok (some r) s) : x.Halts R c := by
  obtain ⟨budget, N, n, hfin⟩ := h
  refine ⟨max budget (x.steps + 1), N + 1, n, .round ?_ hstep (hfin.mono (Int.le_max_left _ _))⟩
  omega

/-- A numeral applied to two variables iterates the one on the other. -/
theorem halts_numeral (p : Twins) (hm : m ∉ p.left.settled) (f x : Variable) (k steps : Nat) :
    Halts R ⟨app m (numeral k) [var f, var x], steps, p.left⟩
      ((Combination.app (.var f))^[k] (.var x)) := by
  have forms : List.Forall₂ Term.Forms [var f, var x] [.var f, .var x] :=
    .cons ⟨trivial, rfl⟩ (.cons ⟨trivial, rfl⟩ .nil)
  obtain ⟨_, s, hr, -, -, u, rfl, hu⟩ := Term.yields_reduce R (c := .numeral k) (r := .power k) rfl
    forms (Nat.le_refl 2) p.left (.left p)
  have known : Term.RecordedAll (fun c => c.isPure = true) p.heap [var f, var x] :=
    ⟨trivial, trivial, trivial⟩
  obtain ⟨p', -, rfl, hrec⟩ := (Term.records_reduce (R := R) (.of_pure R p)
    (show (native (.numeral k)).Recorded (fun c => c.isPure = true) p.heap from rfl)
    known).exists_of_ok hr
  rw [show ((Template.power k).fill ([.var f, .var x].take (Native.numeral k).arity)).apps
    ([.var f, .var x].drop (Native.numeral k).arity) = (Combination.app (.var f))^[k] (.var x) from
    Template.fill_power k _ _ []] at hu
  obtain ⟨p'', -, normal⟩ :=
    Term.step_of_normal (R := R) ⟨hrec u rfl, hu⟩ (Combination.next_iterate f x k)
  refine Halts.of_step ?_ (Term.step_app_of_reduce hm hr)
  exact ⟨0, 0, _, .here normal hu⟩

/-- Whether the term at a stage iterates one variable on another when it is applied to them. -/
def Iterates (R : Rules) (f x : Variable) (k : Nat) (y : Stage) : Prop :=
  ∀ m steps, m ∉ y.store.settled → Halts R ⟨y.term.withMore m [var f, var x], steps, y.store⟩
    ((Combination.app (.var f))^[k] (.var x))

variable {f x : Variable}

/-- The terms that two variables are. -/
private theorem madeOf_vars : Term.MadeOfAll .pure [var f, var x] := ⟨trivial, trivial, trivial⟩

/-- What iterates a variable does so once more when its successor is applied. -/
theorem Iterates.successor {steps : Nat} (hu : Stage.Sound ⟨u, steps, s⟩)
    (h : Iterates R f x k ⟨u, steps, s.grown⟩) (hm : m ∉ s.settled) (steps' : Nat) :
    Halts R ⟨app m (native .successor) [u, var f, var x], steps', s⟩
      ((Combination.app (.var f))^[k + 1] (.var x)) := by
  have unknown : s.nextNode ∉ s.grown.settled := hu.not_mem_settled (Nat.le_refl _)
  obtain ⟨budget, N, n, hfin⟩ := h s.nextNode (steps' + 1) unknown
  have happly : u.apply R [var f, var x] s =
      .ok (u.withMore s.nextNode [var f, var x]) s.grown := by
    rw [Term.apply_eq_extend R u madeOf_vars.firstLiteral_eq_none, Term.extend_eq_withMore hu.made]
  have sound : Stage.Sound ⟨u.withMore s.nextNode [var f, var x], steps' + 1, s.grown⟩ :=
    hu.apply madeOf_vars (fun _ _ _ => ⟨trivial, trivial, trivial⟩) happly _
  obtain ⟨t, s', ht, hfin'⟩ := hfin.headed sound f
  dsimp only at ht hfin'
  have made : t.MadeOf .pure :=
    (Term.ends_apply_madeOf (t := var f) (Kinds.closed_pure R) trivial
      (.cons sound.made .nil)).of_ok ht
  have demanded : Native.demandTerms [var f, u] = pure () := by
    have terms : Term.MadeOfAll .pure [var f, u] := ⟨trivial, hu.made, trivial⟩
    rw [Native.demandTerms, terms.firstLiteral_eq_none]
  have contracted : Native.contract R .successor [u, var f, var x] s = .ok (some t) s' := by
    rw [Native.contract, demanded, pure_bind, Engine.bind_of_ok happly, Engine.bind_of_ok ht]
    rfl
  have reduced : Term.reduce R (native .successor) [u, var f, var x] s = .ok (some t) s' := by
    have alone : t.apply R [] s' = .ok t s' := by
      rw [Term.apply_nil]
      rfl
    rw [Term.reduce_native made contracted]
    exact Engine.bind_ok_iff.mpr ⟨t, s', alone, rfl⟩
  refine Halts.of_step ?_ (Term.step_app_of_reduce hm reduced)
  rw [Function.iterate_succ_apply']
  exact ⟨budget, N, n, hfin'⟩

/-- A name that gives way to what iterates a variable is opened by its arguments, too. -/
private theorem Iterates.named {info : NameInfo} {d : Term} {steps₀ : Nat}
    (made : (Term.named info d).MadeOf .pure) (hopen : info.isOpen = true)
    (h : Iterates R f x k ⟨d, steps₀, s.grown⟩) (hm : m ∉ s.settled)
    (unknown : s.nextNode ∉ s.grown.settled) (steps : Nat) :
    Halts R ⟨app m (.named info d) [var f, var x], steps, s⟩
      ((Combination.app (.var f))^[k] (.var x)) := by
  obtain ⟨⟨a, ha⟩, made⟩ := made
  have zero : a = 0 := by
    rw [NameInfo.isOpen, ha] at hopen
    simpa [Amount.isZero, Amount.whole?] using hopen
  have bound : Engine.bound info.arity = pure (0 : Int) := by
    rw [Engine.bound, ha, zero]
    rfl
  have happly : d.apply R [var f, var x] s =
      .ok (d.withMore s.nextNode [var f, var x]) s.grown := by
    rw [Term.apply_eq_extend R d madeOf_vars.firstLiteral_eq_none, Term.extend_eq_withMore made]
  have reduced : Term.reduce R (.named info d) [var f, var x] s =
      .ok (some (d.withMore s.nextNode [var f, var x])) s.grown := by
    unfold Term.reduce
    dsimp only
    rw [bound, pure_bind, if_neg (by simp)]
    exact Engine.bind_ok_iff.mpr ⟨_, _, happly, rfl⟩
  refine Halts.of_step ?_ (Term.step_app_of_reduce hm reduced)
  exact h s.nextNode (steps + 1) unknown

/-- What a head fires to is extended by further arguments: if that iterates a variable, so does the
application. -/
private theorem Iterates.fires {steps₀ : Nat} (made : (app m₀ h as).MadeOf .pure)
    (hr : Term.reduce R h as s = .ok (some v) s₁) (hv : v.MadeOf .pure)
    (later : Iterates R f x k ⟨v, steps₀, s₁.grown⟩) (unknown : s₁.nextNode ∉ s₁.grown.settled)
    (now : Iterates R f x k ⟨v, steps₀, s₁⟩)
    (fresh : ∀ m₁ g cs, v = app m₁ g cs → m₁ ∉ s₁.settled) (hm : m ∉ s.settled) (steps : Nat) :
    Halts R ⟨app m h (as ++ [var f, var x]), steps, s⟩
      ((Combination.app (.var f))^[k] (.var x)) := by
  obtain ⟨r, extended, more⟩ :=
    Term.extends_reduce made.2.1 made.2.2 hr (madeOf_vars (f := f) (x := x))
  rcases extended with hmore | ⟨m₁, g, cs, rfl, hmore⟩
  · rw [Term.extend_eq_withMore hv] at hmore
    refine Halts.of_step ?_ (Term.step_app_of_reduce hm (more _ _ hmore))
    exact later s₁.nextNode (steps + 1) unknown
  · refine Halts.of_step ?_ (Term.step_app_of_reduce hm (more _ _ hmore))
    exact now m₁ (steps + 1) (fresh m₁ g cs rfl)

/-- A term that becomes a numeral iterates as the numeral does. -/
theorem Finishes.iterates (f x : Variable) (k : Nat) {budget : Int} :
    ∀ {N : Nat} {y : Stage} {n : Nat}, y.Sound → y.Finishes R budget N n (.native (.numeral k)) →
      y.Iterates R f x k := by
  induction k using Nat.strong_induction_on with
  | _ k ihk =>
  intro N
  induction N with
  | zero =>
    intro y n hy hfin m steps hm
    cases hfin with
    | here _ forms =>
      obtain ⟨p, hp, -⟩ := hy.recorded
      rw [forms.eq_numeral, ← hp]
      exact halts_numeral p (hp ▸ hm) f x k steps
  | succ N ih =>
    intro y n hy hfin m steps hm
    have whole := hfin
    cases hfin with
    | @round _ r s₁ _ _ _ hb hstep rest =>
      have sound := hy.after hstep
      -- what comes next iterates when it is applied, and another application is made
      have grown := ih (sound.grown _) (sound.finishes_grown_iff.mpr rest)
      have unknown : s₁.nextNode ∉ s₁.grown.settled := sound.not_mem_settled (Nat.le_refl _)
      obtain ⟨t, steps₀, s⟩ := y
      cases t with
      | named info d =>
        rw [Term.step] at hstep
        cases hopen : info.isOpen with
        | false =>
          rw [hopen] at hstep
          cases hstep
        | true =>
          rw [hopen] at hstep
          cases hstep
          exact grown.named hy.made hopen hm unknown steps
      | app m₀ h as =>
        rcases Term.step_app_cases hstep with ⟨w, hr, rfl⟩ | waits
        · refine grown.fires hy.made hr sound.made unknown (ih sound rest) ?_ hm steps
          -- an application that becomes a numeral is not in the table
          rintro m₁ g cs rfl
          cases rest with
          | here _ forms => cases forms.eq_numeral
          | round _ hstep' _ => exact Term.not_mem_settled_of_step hstep'
        · by_cases hsucc : h = native .successor ∧ as.length = 1
          · obtain ⟨rfl, hlen⟩ := hsucc
            obtain ⟨u, rfl⟩ := List.length_eq_one_iff.mp hlen
            obtain ⟨p, hp, hrec⟩ := hy.recorded
            have hu : Stage.Sound ⟨u, steps₀, s⟩ := ⟨hy.made.2.2.1, p, hp, hrec.2.2.1⟩
            obtain ⟨j, rfl, hj⟩ := whole.exists_of_successor hu
            have iterates := ihk j (Nat.lt_succ_self j) (hu.grown steps₀)
              (hu.finishes_grown_iff.mpr hj)
            exact iterates.successor hu hm steps
          · exact absurd whole (not_finishes_of_blocks hy.made rfl
              ⟨waits, fun hs hlen => hsucc ⟨hs, hlen⟩⟩)
      | foreign z => exact hy.made.elim
      | _ =>
        rw [Term.step] at hstep
        · cases hstep
        all_goals exact nofun

end Stage

/-! ### Runs of the successor -/

namespace Term

variable {R' : Rules} {budget : Amount} {strict : Bool} {b : Int} {n : Nat} {ρ : Renumbering}
  {q : Twins}

/-- A run without arguments is the run from the term itself, which a strict one examines. -/
private theorem run_nil_eq_runFrom (hb : budget.bound? = some b) (R : Rules) (t : Term)
    (strict : Bool) :
    run R budget t [] strict = running R b t 0 patience >>= fun out => do
      if strict && !out.final then throw (.runOutOfSteps t budget)
      return out := by
  unfold run
  rw [apply_nil, pure_bind, Engine.bound_eq_pure hb, pure_bind]
  rfl

/-- The successor of a term that runs to a numeral runs to the next numeral in as many steps, unless
this is too long. -/
private theorem exists_run_successor {N : Nat} (hb : budget.bound? = some b)
    (ht : Stage.Sound ⟨t, 0, s⟩)
    (hfin : Stage.Finishes R b N ⟨t, 0, s⟩ n (.native (.numeral k))) (strict : Bool) :
    ∃ s', (apply R (native .successor) [t] >>= fun u => u.run R budget [] strict) s =
      if k + 1 < Native.numeralBound then .ok ⟨numeral (k + 1), n, true⟩ s'
      else .error .numeralTooLong s' := by
  by_cases hk : k + 1 < Native.numeralBound
  · obtain ⟨u, s', happly, hu⟩ := hfin.next ht hk
    have made : u.MadeOf .pure :=
      (ends_apply_madeOf (t := native .successor) (Kinds.closed_pure R) rfl
        (.cons ht.made .nil)).of_ok happly
    obtain ⟨v, s₂, hrun, forms⟩ := hu.exists_runFrom made patience
    rw [forms.eq_numeral] at hrun
    refine ⟨s₂, ?_⟩
    rw [if_pos hk, Engine.bind_of_ok happly]
    exact run_nil_ok_iff.mpr ⟨b, hb, hrun, fun _ => rfl⟩
  · obtain ⟨s', failed⟩ := hfin.tooLong ht hk patience
    refine ⟨s', ?_⟩
    rw [if_neg hk]
    cases happly : apply R (native .successor) [t] s with
    | error e s₁ =>
      cases (Engine.bind_of_error happly).symm.trans failed
      exact Engine.bind_of_error happly
    | ok u s₁ =>
      have ran := (Engine.bind_of_ok happly).symm.trans failed
      rw [Engine.bind_of_ok happly, run_nil_eq_runFrom hb]
      exact Engine.bind_of_error ran

/-- Applied to two variables it iterates the one on the other. -/
private theorem exists_run_successor_vars {N : Nat} (ht : Stage.Sound ⟨t, 0, s⟩)
    (hfin : Stage.Finishes R b N ⟨t, 0, s⟩ n (.native (.numeral k)))
    (hk : k + 1 < Native.numeralBound ∨ t ≠ numeral k) (f x : Variable) :
    ∃ M : Nat, ∀ b : Int, M ≤ b → ∀ strict, ∃ out s',
      (apply R (native .successor) [t, var f, var x] >>= fun u =>
        u.run R (.number b) [] strict) s = .ok out s' ∧ out.final = true ∧
      out.term.Forms ((Combination.app (.var f))^[k + 1] (.var x)) := by
  have terms : MadeOfAll .pure [t, var f, var x] := ⟨ht.made, trivial, trivial, trivial⟩
  obtain ⟨u, happly, halts⟩ : ∃ u, apply R (native .successor) [t, var f, var x] s =
      .ok u s.grown ∧ Stage.Halts R ⟨u, 0, s.grown⟩
        ((Combination.app (.var f))^[k + 1] (.var x)) := by
    rw [apply_eq_extend R _ terms.firstLiteral_eq_none]
    have unknown : s.nextNode ∉ s.grown.settled := ht.not_mem_settled (Nat.le_refl _)
    by_cases hn : t = numeral k
    · rw [hn, extend_successor_numeral R (hk.resolve_right fun h => h hn)]
      obtain ⟨p, hp, -⟩ := (ht.grown 0).recorded
      refine ⟨app s.nextNode (numeral (k + 1)) [var f, var x], ?_, ?_⟩
      · rw [extend_native R rfl]
        rfl
      · rw [← show p.left = s.grown from hp] at unknown ⊢
        exact Stage.halts_numeral p unknown f x (k + 1) 0
    · have alone (j : Nat) : t ≠ numeral j := by
        rintro rfl
        cases hfin.of_numeral.2.2
        exact hn rfl
      have iterates : Stage.Iterates R f x k ⟨t, 0, s.grown.grown⟩ :=
        Stage.Finishes.iterates f x k ((ht.grown 0).grown 0)
          ((ht.grown 0).finishes_grown_iff.mpr (ht.finishes_grown_iff.mpr hfin))
      refine ⟨app s.nextNode (native .successor) [t, var f, var x], ?_,
        iterates.successor (ht.grown 0) unknown 0⟩
      rw [extend, replacement_successor alone, pure_bind]
      rfl
  obtain ⟨M, N', n', hfin'⟩ := halts
  have made : u.MadeOf .pure :=
    (ends_apply_madeOf (t := native .successor) (Kinds.closed_pure R) rfl terms).of_ok happly
  refine ⟨M.toNat, fun b hb strict => ?_⟩
  obtain ⟨v, s', hrun, forms⟩ := (hfin'.mono (by omega : M ≤ b)).exists_runFrom made patience
  refine ⟨⟨v, n', true⟩, s', ?_, rfl, forms⟩
  rw [Engine.bind_of_ok happly]
  exact run_nil_ok_iff.mpr ⟨b, rfl, hrun, fun _ => rfl⟩

end Term

namespace Workspace

variable {w w₁ w₂ : Workspace} {ts : List Term}

/-- A run of a term that was built is a run of the term in every later workspace. -/
private theorem Reachable.exists_finishes (h : w.Reachable) (hts : Builds w.store ts) (ht : t ∈ ts)
    (hmem : t ∈ w.terms) (h₁ : ReflTransGen Move w w₁) {R₁ : Rules} {budget : Amount}
    {strict : Bool} {n : Nat} {s : Store}
    (hrun : t.run R₁ budget [] strict w₁.store = .ok ⟨.numeral k, n, true⟩ s)
    (h₂ : ReflTransGen Move w w₂) (R : Rules) :
    ∃ b N, budget.bound? = some b ∧ Stage.Sound ⟨t, 0, w₂.store⟩ ∧
      Stage.Finishes R b N ⟨t, 0, w₂.store⟩ n (.native (.numeral k)) := by
  obtain ⟨base, ⟨ρ₁, q₁, left₁, kept₁⟩, ρ₂, q₂, left₂, kept₂⟩ := h.exists_kept hts ht hmem h₁ h₂
  rw [← left₁] at hrun
  obtain ⟨out, s₀, hbase, hout⟩ := (kept₁.repeats_run R₁ R₁ budget strict).exists_base _ _ hrun
  obtain ⟨_, s₂, hlater, rfl⟩ := (kept₂.repeats_run R₁ R budget strict).exists_later _ _ hbase
  -- a numeral is the same for every renumbering
  obtain ⟨u, m, final⟩ := out
  obtain rfl : u = .numeral k := by
    cases u with
    | native c =>
      cases hout
      rfl
    | _ => cases hout
  cases hout
  rw [left₂] at hlater
  obtain ⟨b, hb, hfrom, -⟩ := Term.run_nil_ok_iff.mp hlater
  have sound : Stage.Sound ⟨t, 0, w₂.store⟩ := ⟨kept₂.made, q₂, left₂, kept₂.recorded⟩
  obtain ⟨N, hfin⟩ := Stage.exists_finishes (x := ⟨t, 0, w₂.store⟩) sound.made hfrom ⟨rfl, rfl⟩
  exact ⟨b, N, hb, sound, hfin⟩

/-- The two ways of the successor to a number meet. Where a term that was built runs to a numeral,
its successor runs to the next numeral within the same budget and after as many steps, unless this
is too long, and applied to two variables it is run within some budget to as many applications of
the one to the other, unless the term is the longest numeral itself. Both hold whatever a caller has
done before. -/
theorem Reachable.run_successor (h : w.Reachable) (hts : Builds w.store ts) (ht : t ∈ ts)
    (hmem : t ∈ w.terms) (h₁ : ReflTransGen Move w w₁) {R₁ : Rules} {budget : Amount}
    {strict : Bool} {n : Nat} {s : Store}
    (hrun : t.run R₁ budget [] strict w₁.store = .ok ⟨.numeral k, n, true⟩ s)
    (h₂ : ReflTransGen Move w w₂) (R : Rules) :
    (∀ strict, ∃ s₂, (Term.apply R (.native .successor) [t] >>= fun u =>
        u.run R budget [] strict) w₂.store =
      if k + 1 < Native.numeralBound then .ok ⟨.numeral (k + 1), n, true⟩ s₂
      else .error .numeralTooLong s₂) ∧
    ∀ f x : Variable, (k + 1 < Native.numeralBound ∨ t ≠ .numeral k) →
      ∃ M : Nat, ∀ b : Int, M ≤ b → ∀ strict, ∃ out s₂,
        (Term.apply R (.native .successor) [t, .var f, .var x] >>= fun u =>
          u.run R (.number b) [] strict) w₂.store = .ok out s₂ ∧ out.final = true ∧
        out.term.Forms ((Combination.app (.var f))^[k + 1] (.var x)) := by
  obtain ⟨b, N, hb, sound, hfin⟩ := h.exists_finishes hts ht hmem h₁ hrun h₂ R
  exact ⟨Term.exists_run_successor hb sound hfin,
    fun f x hk => Term.exists_run_successor_vars sound hfin hk f x⟩

namespace Succeeding

/-- The application `I 2`. -/
def two : Term := .app 0 (.native .I) [.numeral 2]

/-- What is at hand after it was built. -/
def workspace : Workspace := ⟨⟨1, 1, ∅⟩, [], [two, .numeral 2, .native .I]⟩

theorem reachable : workspace.Reachable := by
  have named : Reachable ⟨{}, [], [.numeral 2, .native .I]⟩ :=
    (ReflTransGen.single (.native .I)).tail (.native (.numeral 2))
  exact named.apply (f := .native .I) (l := [.numeral 2]) (Rules.steadyOver_undeclared _) (by simp)
    rfl

theorem builds : Builds workspace.store workspace.terms :=
  (Builds.native (.native .start rfl) rfl).applied (R := .undeclared) (f := .native .I)
    (l := [.numeral 2]) (by simp) rfl

/-- It takes one step to the numeral. -/
theorem run_two : two.run Rules.undeclared (.number 1) [] false workspace.store =
    .ok ⟨.numeral 2, 1, true⟩ workspace.store := by
  have unknown : 0 ∉ workspace.store.settled := Std.HashSet.not_mem_empty
  have step : two.step Rules.undeclared workspace.store =
      .ok (some ⟨.numeral 2, 1⟩) workspace.store := Term.step_app_of_reduce unknown rfl
  refine Term.run_nil_ok_iff.mpr ⟨1, rfl, ?_, nofun⟩
  rw [Term.runFrom_of_step (by decide) step Nat.one_ne_zero]
  exact Term.runFrom_of_normal (Term.step_native _ _ _)

end Succeeding

/-- The successor of `I 2` takes one step to three, and is run on two variables to three
applications of the one to the other. -/
theorem run_successor_identity :
    Succeeding.workspace.Reachable ∧ Builds Succeeding.workspace.store Succeeding.workspace.terms ∧
      Succeeding.two.run Rules.undeclared (.number 1) [] false Succeeding.workspace.store =
        .ok ⟨.numeral 2, 1, true⟩ Succeeding.workspace.store ∧
      (∃ s, (Term.apply Rules.undeclared (.native .successor) [Succeeding.two] >>= fun u =>
          u.run Rules.undeclared (.number 1) [] false) Succeeding.workspace.store =
        .ok ⟨.numeral 3, 1, true⟩ s) ∧
      ∀ f x : Variable, ∃ M : Nat, ∀ b : Int, M ≤ b → ∃ out s,
        (Term.apply Rules.undeclared (.native .successor) [Succeeding.two, .var f, .var x] >>=
          fun u => u.run Rules.undeclared (.number b) [] false) Succeeding.workspace.store =
            .ok out s ∧ out.final = true ∧
        out.term.Forms ((Combination.app (.var f))^[3] (.var x)) := by
  have short : 2 + 1 < Native.numeralBound := by decide +kernel
  obtain ⟨single, triple⟩ := Succeeding.reachable.run_successor Succeeding.builds
    List.mem_cons_self List.mem_cons_self .refl Succeeding.run_two .refl Rules.undeclared
  obtain ⟨s, hs⟩ := single false
  rw [if_pos short] at hs
  refine ⟨Succeeding.reachable, Succeeding.builds, Succeeding.run_two, ⟨s, hs⟩, fun f x => ?_⟩
  obtain ⟨M, hM⟩ := triple f x (.inl short)
  exact ⟨M, fun b hb => hM b hb false⟩

/-- The longest numeral is in normal form, and its successor cannot be built. -/
theorem run_successor_longest :
    (Term.numeral (Native.numeralBound - 1)).run Rules.undeclared (.number 0) [] false {} =
        .ok ⟨.numeral (Native.numeralBound - 1), 0, true⟩ {} ∧
      (Term.apply Rules.undeclared (.native .successor) [.numeral (Native.numeralBound - 1)] >>=
        fun u => u.run Rules.undeclared (.number 0) [] false) {} = .error .numeralTooLong {} := by
  have long : ¬ Native.numeralBound - 1 + 1 < Native.numeralBound := by omega
  have normal := Term.step_native Rules.undeclared (.numeral (Native.numeralBound - 1)) {}
  exact ⟨Term.run_nil_ok_iff.mpr ⟨0, rfl, Term.runFrom_of_normal normal, nofun⟩,
    Engine.bind_of_error (Term.apply_successor_tooLong _ long _)⟩

end Workspace

end Combinatory
