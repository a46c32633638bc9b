import Combinatory.Proofs.Hygiene
import Combinatory.Proofs.Invariant.Conversion
import Combinatory.Proofs.Regular

/-!
# Well-formed terms

In a well-formed term every application is one that applying makes: it has arguments, its head is no
application, and it is not the successor of a numeral. This holds inside of arguments, of the bodies
of lambdas and of the definitions of names. A head becomes an application, or a first argument a
numeral, far from where the term was built: when a variable is replaced, when a name gives way to
its definition, when a rule fires inside of an argument. All of these build the term around it by
applying once more, so no operation gives a term that is not well-formed
(`Operation.wellFormed_of_perform`).
-/

namespace Combinatory

open Engine (Ends)

namespace Term

mutual

/-- Whether every application in a term can stand as it is. The term has no literal in it, and no
combinators but those that stand for lambda terms. -/
def WellFormed : Term → Prop
  | var _ => True
  | native c => c.isPure = true
  | foreign _ => False
  | named _ d => WellFormed d
  | lam _ b => WellFormed b
  | app _ h as => StandsAs h as ∧ WellFormed h ∧ WellFormedAll as

/-- Whether this holds of all terms of a list. -/
def WellFormedAll : List Term → Prop
  | [] => True
  | a :: as => WellFormed a ∧ WellFormedAll as

end

variable {R : Rules} {t : Term} {ts us : List Term}

theorem wellFormedAll_iff : WellFormedAll ts ↔ ∀ t ∈ ts, t.WellFormed := by
  induction ts with
  | nil => simp [WellFormedAll]
  | cons t ts ih => rw [WellFormedAll, ih, List.forall_mem_cons]

theorem wellFormedAll_append :
    WellFormedAll (ts ++ us) ↔ WellFormedAll ts ∧ WellFormedAll us := by
  simp only [wellFormedAll_iff, List.forall_mem_append]

/-- A well-formed term is no literal. -/
theorem WellFormed.literal?_eq_none (ht : t.WellFormed) : t.literal? = none := by
  cases t with
  | foreign x => exact ht.elim
  | _ => rfl

theorem WellFormedAll.firstLiteral_eq_none (hts : WellFormedAll ts) : firstLiteral ts = none := by
  rw [firstLiteral, List.findSome?_eq_none_iff]
  exact fun t ht => (wellFormedAll_iff.mp hts t ht).literal?_eq_none

/-! ### Application -/

/-- A combinator that stands for a lambda term replaces itself and its first argument by a numeral,
if at all, and it does so when it is the successor and its argument a numeral. -/
private theorem givesOnly_replacement {c : Native} (hc : c.isPure = true) (a : Term) :
    GivesOnly (c.replacement R a) fun o => IfAny (fun u => ∃ n, u = numeral n) o ∧
      (o = none → c = .successor → ∀ n, a ≠ numeral n) := by
  cases c with
  | successor =>
    unfold Native.replacement
    dsimp only
    split
    · split
      · exact .pure ⟨.some ⟨_, rfl⟩, by simp⟩
      · exact .throw trivial
    · next hne => exact .pure ⟨.none, fun _ _ n hn => hne n hn⟩
  | toNumeral | lambdaMark | user u => cases hc
  | _ => exact .pure ⟨.none, by simp⟩

private theorem wellFormed_node {h : Term} {as : List Term} (hst : StandsAs h as)
    (hh : h.WellFormed) (has : WellFormedAll as) : GivesOnly (Engine.node h as) WellFormed := by
  apply (Engine.ends_node h as).imp
  rintro u ⟨n, rfl⟩
  exact ⟨hst, hh, has⟩

private theorem wellFormed_extend : ∀ (as : List Term) {t : Term}, t.WellFormed →
    WellFormedAll as → GivesOnly (extend R t as) WellFormed
  | [], t, ht, _ => by
    unfold extend
    exact .pure ht
  | a :: as, t, ht, has => by
    unfold extend
    split
    · next n h bs =>
      -- the arguments are merged, and the first of them stays the first
      obtain ⟨hst, hh, hbs⟩ := ht
      refine wellFormed_node ⟨?_, hst.flat, fun hsucc n => ?_⟩ hh
        (wellFormedAll_append.mpr ⟨hbs, has⟩)
      · exact List.append_ne_nil_of_left_ne_nil hst.nonempty (a :: as)
      · obtain ⟨b, bs, rfl⟩ := List.exists_cons_of_ne_nil hst.nonempty
        exact hst.unmet hsucc n
    · next c =>
      apply (givesOnly_replacement ht a).bind
      rintro o ⟨hsome, hnone⟩
      cases o with
      | some u =>
        obtain ⟨n, rfl⟩ := hsome u rfl
        exact wellFormed_extend as (t := numeral n) rfl has.2
      | none =>
        refine wellFormed_node ⟨List.cons_ne_nil a as, nofun, fun hsucc n => ?_⟩ ht has
        have unmet := hnone rfl (by injection hsucc) n
        exact fun h => unmet (by injection h)
    · next happ hnat =>
      refine wellFormed_node ⟨List.cons_ne_nil a as, happ, ?_⟩ ht has
      exact fun hsucc => (hnat _ hsucc).elim

/-- Well-formedness is an invariant, whatever the rules of user combinators. -/
theorem wellFormed_invariant (R : Rules) : Invariant R WellFormed where
  var _ := trivial
  base {c} hc := by
    cases c with
    | I | K | S => rfl
    | _ => cases hc
  isPure hc := hc
  literal hx := hx
  named ht := ht
  lam := Iff.rfl
  head ht := ht.2.1
  args ht := wellFormedAll_iff.mp ht.2.2
  apply {t as} ht has := by
    have all := wellFormedAll_iff.mpr has
    rw [apply_eq_extend R t all.firstLiteral_eq_none]
    exact wellFormed_extend as ht all

end Term

/-! ### Operations -/

section

variable {R : Rules} {P : Term → Prop}

/-- What is given alone meets a condition if it is all that is given. -/
private theorem GivesOnly.singleton {x : Engine Term} (hx : GivesOnly x P) :
    GivesOnly (do return [← x]) fun us => ∀ u ∈ us, P u :=
  hx.bind fun _ hu => .pure (List.forall_mem_singleton.mpr hu)

/-- What is listed as it is meets a condition. -/
private theorem GivesOnly.items {α : Type} {x : Engine (Listing α)} {term : α → Term}
    (hx : GivesOnly x fun l => ∀ y ∈ l.items,
      ∃ r, Except.ok (ε := Failure) r = .ok y ∧ P (term r)) :
    GivesOnly (do return (← x).items.map term) fun us => ∀ u ∈ us, P u := by
  apply hx.bind
  intro l hl
  refine .pure fun u hu => ?_
  obtain ⟨y, hy, rfl⟩ := List.mem_map.mp hu
  obtain ⟨r, ⟨⟩, hr⟩ := hl y hy
  exact hr

private theorem IfAny.toList {o : Option Term} (ho : IfAny P o) : ∀ u ∈ o.toList, P u :=
  fun u hu => ho u (Option.mem_toList.mp hu)

namespace Invariant

private theorem call (hP : Invariant R P) (hnames : ∀ info d, P d → P (.named info d)) (c : Call)
    (hc : ∀ t ∈ c.inputs, P t)
    (hst : ∀ h as, c = .application h as → ∀ n, P (.app n h as)) :
    GivesOnly (c.perform R) fun us => ∀ u ∈ us, P u := by
  cases c with
  | apply h as =>
    obtain ⟨hh, has⟩ := List.forall_mem_cons.mp hc
    exact GivesOnly.singleton (hP.apply hh has)
  | application h as =>
    refine GivesOnly.singleton ?_
    unfold Term.application
    split
    · exact .throw trivial
    · apply (Engine.ends_node h as).imp
      rintro u ⟨n, rfl⟩
      exact hst h as rfl n
  | lambda listed binders body =>
    exact GivesOnly.singleton (hP.lambdaOver listed binders (hc body List.mem_cons_self))
  | define limits name t terminal canonize note =>
    apply (Naming.givesOnly_ofTerm hP hnames limits name terminal canonize note
      (hc t List.mem_cons_self)).bind
    rintro n ⟨hn, hcanonical⟩
    exact .pure (List.forall_mem_cons.mpr ⟨hn, hcanonical.toList⟩)
  | describe name t arity proper terminal note =>
    apply (Naming.givesOnly_new hnames name arity proper terminal note (hc t List.mem_cons_self)
      .none).bind
    exact fun n hn => .pure (List.forall_mem_singleton.mpr hn.1)
  | subst t v value =>
    obtain ⟨ht, hvalue⟩ := List.forall_mem_cons.mp hc
    apply (hP.subst (v := v) ht (List.forall_mem_singleton.mp hvalue)).bind
    exact fun o ho => .pure ho.toList
  | step t =>
    apply (hP.step (hc t List.mem_cons_self)).bind
    intro o ho
    refine .pure fun u hu => ?_
    obtain ⟨r, hr, rfl⟩ := List.mem_map.mp hu
    exact ho r (Option.mem_toList.mp hr)
  | run budget t args strict =>
    obtain ⟨ht, hargs⟩ := List.forall_mem_cons.mp hc
    apply (hP.run budget ht hargs strict).bind
    exact fun out hout => .pure (List.forall_mem_singleton.mpr hout)
  | walk budget limit t =>
    apply (hP.walk budget limit (hc t List.mem_cons_self)).bind
    intro l hl
    refine .pure fun u hu => ?_
    obtain ⟨r, hr, rfl⟩ := List.mem_map.mp hu
    exact hl r hr
  | canonicalize limits t strict =>
    apply (hP.canonicalize limits strict (hc t List.mem_cons_self)).bind
    exact fun c hc => .pure hc.toList

private theorem conversion (hP : Invariant R P) (c : Conversion) (hc : P c.input) :
    GivesOnly (c.perform R) fun us => ∀ u ∈ us, P u := by
  cases c with
  | expand t => exact GivesOnly.singleton (hP.expand hc)
  | bracketForm limits maxSteps t => exact GivesOnly.singleton (hP.bracketForm limits maxSteps hc)
  | bracketForms limits perStep limit t =>
    exact GivesOnly.items (hP.bracketForms limits perStep limit .ok hc)
  | naiveForm limits t => exact GivesOnly.singleton (hP.naiveForm limits hc)
  | lambdaForms limits limit t => exact GivesOnly.items (hP.lambdaForms limits limit .ok hc)
  | lighterForms limits ceiling limit t =>
    exact GivesOnly.items (hP.lighterForms limits ceiling limit .ok hc)

/-- Of terms that meet an invariant, every operation gives only terms that meet it. Definitions must
pass it on to new names, and an application that is kept as it is must meet it. -/
theorem operation (hP : Invariant R P) (hnames : ∀ info d, P d → P (.named info d))
    (o : Operation) (ho : ∀ t ∈ o.inputs, P t)
    (hst : ∀ h as, o = .call (.application h as) → ∀ n, P (.app n h as)) :
    GivesOnly (o.perform R) fun us => ∀ u ∈ us, P u := by
  cases o with
  | call c => exact hP.call hnames c ho fun h as hc => hst h as (congrArg _ hc)
  | convert c => exact hP.conversion c (List.forall_mem_singleton.mp ho)

end Invariant

end

/-- No operation leaves the well-formed terms, whatever the rules and the store: applying,
abstraction, replacing a variable, steps, runs and walks with any arguments, names and their
expansion, canonical forms and guesses at them, the bracket form and every snapshot on the way
there, the naive lambda form and every form that the search for lighter ones lists. Nor does a rule
that fires, nor the binary view of an application. Only an application that a caller puts together
as it is must be able to stand. -/
theorem Operation.wellFormed_of_perform (R : Rules) (s s' : Store) :
    (∀ (o : Operation) (us : List Term), (∀ t ∈ o.inputs, t.WellFormed) →
      (∀ h as, o = .call (.application h as) → h.StandsAs as) →
      o.perform R s = .ok us s' → ∀ u ∈ us, u.WellFormed) ∧
    (∀ t front last : Term, t.WellFormed → t.halves R s = .ok (front, last) s' →
      front.WellFormed ∧ last.WellFormed) ∧
    ∀ (h : Term) (as : List Term) (u : Term), h.WellFormed → (∀ a ∈ as, a.WellFormed) →
      h.reduce R as s = .ok (some u) s' → u.WellFormed := by
  have hP := Term.wellFormed_invariant R
  refine ⟨fun o us ho hst hus => ?_, fun t front last ht hsplit => ?_,
    fun h as u hh has hu => ?_⟩
  · refine (hP.operation (fun _ _ hd => hd) o ho fun h as heq n => ?_).of_ok hus
    subst heq
    obtain ⟨hh, has⟩ := List.forall_mem_cons.mp ho
    exact ⟨hst h as rfl, hh, Term.wellFormedAll_iff.mpr has⟩
  · exact (hP.halves ht).of_ok hsplit
  · exact (hP.reduce hh has).of_ok hu u rfl

/-! ### A numeral that meets the successor, and a head that becomes an application -/

namespace Merging

/-- A free variable. -/
def y : Variable := ⟨"y", 1⟩

/-- The lambda `λ x, x (+ x)`. -/
def lambda : Term :=
  .lam ⟨"x", 2⟩ (.app 1 (.var ⟨"x", 2⟩) [.app 0 (.native .successor) [.var ⟨"x", 2⟩]])

/-- The application of the lambda to the numeral `1` and to `y`. -/
def term : Term := .app 2 lambda [.numeral 1, .var y]

/-- The store that the engine has reached when both are built. -/
def store : Store := ⟨3, 3, ∅⟩

theorem standsAs (v : Variable) (a : Term) (as : List Term) : (Term.var v).StandsAs (a :: as) :=
  ⟨List.cons_ne_nil a as, nofun, nofun⟩

theorem wellFormed : term.WellFormed := by
  have successor : (Term.native .successor).StandsAs [.var ⟨"x", 2⟩] :=
    ⟨List.cons_ne_nil _ _, nofun, fun _ _ => nofun⟩
  have head : lambda.StandsAs [.numeral 1, .var y] := ⟨List.cons_ne_nil _ _, nofun, nofun⟩
  have body := standsAs ⟨"x", 2⟩ (.app 0 (.native .successor) [.var ⟨"x", 2⟩]) []
  exact ⟨head, ⟨body, trivial, ⟨successor, rfl, trivial, trivial⟩, trivial⟩, rfl, trivial, trivial⟩

/-- The term after a step: `1 2 y`. -/
def reduct : Term := .app 4 (.numeral 1) [.numeral 2, .var y]

theorem reduce_lambda : lambda.reduce Rules.undeclared [.numeral 1, .var y] store =
    .ok (some reduct) { store with nextNode := 5 } := by
  have short : 1 + 1 < Native.numeralBound := by decide +kernel
  simp [lambda, reduct, store, short, Term.reduce, Term.instantiate, Term.subst, Term.replace,
    Term.replaceAll, Term.isNull, Term.literal?, Term.apply, Term.firstLiteral, Term.extend,
    Native.replacement, Engine.node, bind, EStateM.bind, pure, EStateM.pure]

theorem step_term : (Operation.call (.step term)).perform Rules.undeclared store =
    .ok [reduct] { store with nextNode := 5 } := by
  have fired : term.step Rules.undeclared store =
      .ok (some ⟨reduct, 1⟩) { store with nextNode := 5 } := by
    unfold term Term.step
    exact Engine.bind_ok_iff.mpr ⟨false, store, by simp [Engine.isSettled, store],
      Engine.bind_ok_iff.mpr ⟨_, _, reduce_lambda, rfl⟩⟩
  exact Engine.bind_ok_iff.mpr ⟨_, _, fired, rfl⟩

theorem halves_term : term.halves Rules.undeclared store =
    .ok (.app 3 lambda [.numeral 1], .var y) { store with nextNode := 4 } := rfl

end Merging

/-- In a step of `(λ x, x (+ x)) 1 y` the successor meets a numeral, and the application that takes
the place of the lambda is merged with the argument that is left. -/
theorem Operation.wellFormed_of_perform_merging :
    Merging.term.WellFormed ∧
      (Operation.call (.step Merging.term)).perform Rules.undeclared Merging.store =
        .ok [Merging.reduct] { Merging.store with nextNode := 5 } ∧
      (∀ u ∈ [Merging.reduct], u.WellFormed) ∧ Merging.reduct.WellFormed ∧
      (Term.app 3 Merging.lambda [.numeral 1]).WellFormed ∧ (Term.var Merging.y).WellFormed := by
  have wellFormed := Merging.wellFormed
  obtain ⟨steps, -, reductions⟩ := wellFormed_of_perform Rules.undeclared Merging.store
    { Merging.store with nextNode := 5 }
  obtain ⟨-, halves, -⟩ := wellFormed_of_perform Rules.undeclared Merging.store
    { Merging.store with nextNode := 4 }
  have stepped := steps (.call (.step Merging.term)) _ (List.forall_mem_singleton.mpr wellFormed)
    (fun _ _ h => by cases h) Merging.step_term
  have reduced := reductions _ _ _ wellFormed.2.1 (Term.wellFormedAll_iff.mp wellFormed.2.2)
    Merging.reduce_lambda
  exact ⟨wellFormed, Merging.step_term, stepped, reduced,
    halves _ _ _ wellFormed Merging.halves_term⟩

end Combinatory
