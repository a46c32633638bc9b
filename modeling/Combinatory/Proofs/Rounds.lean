import Combinatory.Proofs.Combination.Runs
import Combinatory.Proofs.Renumbering.Reduction

/-!
# Runs below a head that waits

A variable and the successor wait for more than one argument. A run of a term that they are applied
to makes the rounds of a run of the argument, one by one, and gives out one more identity in each.
An application that nobody knows of makes no difference to the rounds that follow
(`Stage.Sound.finishes_grown_iff`), so the two runs keep in step: a normal form below a variable is
reached after as many steps (`Stage.Finishes.headed`), and a numeral below the successor becomes the
next one as soon as it is reached (`Stage.Finishes.next`).
-/

namespace Combinatory

/-- The store after one more application was made. -/
def Store.grown (s : Store) : Store := { s with nextNode := s.nextNode + 1 }

/-- A run makes a number of rounds from a stage on within a budget, and ends after a number of steps
in all with a normal form that forms a combination. -/
inductive Stage.Finishes (R : Rules) (budget : Int) : Nat → Stage → Nat → Combination → Prop
  | here {x : Stage} {s : Store} {c : Combination}
      (normal : x.term.step R x.store = .ok none s) (forms : x.term.Forms c) :
      Finishes R budget 0 x x.steps c
  | round {x : Stage} {r : Term.Stepped} {s : Store} {N n : Nat} {c : Combination}
      (hb : (x.steps : Int) < budget) (hstep : x.term.step R x.store = .ok (some r) s)
      (rest : Finishes R budget N (x.after r s) n c) : Finishes R budget (N + 1) x n c

/-- Whether a stage is at a term of applications that the store knows of. -/
structure Stage.Sound (x : Stage) : Prop where
  made : x.term.MadeOf .pure
  recorded : ∃ p : Twins, p.left = x.store ∧ x.term.Recorded (fun c => c.isPure = true) p.heap

variable {R R' : Rules} {budget : Int} {x y : Stage} {N n k : Nat} {c : Combination} {s : Store}
  {t u : Term} {p : Twins}

namespace Stage.Sound

/-- The terms that a step leads to are known. -/
theorem after (h : x.Sound) {r : Term.Stepped} (hstep : x.term.step R x.store = .ok (some r) s) :
    (x.after r s).Sound := by
  obtain ⟨p, hp, hrec⟩ := h.recorded
  rw [← hp] at hstep
  obtain ⟨p', -, hs, scanned⟩ := (Term.alike_step (.of_pure R p) hrec).exists_of_ok hstep
  exact ⟨((Term.ends_step (Kinds.closed_pure R) h.made).of_ok hstep r rfl).1, p', hs,
    scanned.recorded r rfl⟩

/-- They are when another application has been made. -/
theorem grown (h : x.Sound) (steps : Nat) : Stage.Sound ⟨x.term, steps, x.store.grown⟩ := by
  obtain ⟨p, hp, hrec⟩ := h.recorded
  have made : Engine.freshNode p.left = .ok p.left.nextNode p.left.grown := rfl
  obtain ⟨p', later, hs, -⟩ := (Engine.alike_freshNode p).exists_of_ok made
  exact ⟨h.made, p', hs.trans (hp ▸ rfl), hrec.later later⟩

/-- Terms that are applied to known ones are known. -/
theorem apply (h : x.Sound) {as : List Term} (has : Term.MadeOfAll .pure as)
    (known : ∀ p : Twins, p.left = x.store → x.term.Recorded (fun c => c.isPure = true) p.heap →
      Term.RecordedAll (fun c => c.isPure = true) p.heap as)
    (happly : x.term.apply R as x.store = .ok u s) (steps : Nat) : Stage.Sound ⟨u, steps, s⟩ := by
  obtain ⟨p, hp, hrec⟩ := h.recorded
  rw [← hp] at happly
  obtain ⟨p', -, hs, hu⟩ :=
    (Term.records_apply (.of_pure R p) hrec (known p hp hrec)).exists_of_ok happly
  have made := (Term.ends_apply_madeOf (Kinds.closed_pure R) h.made has).of_ok happly
  exact ⟨made, p', hs, hu⟩

end Stage.Sound

/-- What has not been made yet is not in the table. -/
theorem Stage.Sound.not_mem_settled (h : x.Sound) {m : Nat} (hm : x.store.nextNode ≤ m) :
    m ∉ x.store.settled := by
  obtain ⟨p, hp, -⟩ := h.recorded
  rw [← hp] at hm ⊢
  exact (Store.Sane.left p).not_mem_settled hm

/-- A larger budget allows the same rounds. -/
theorem Stage.Finishes.mono {budget' : Int} (h : x.Finishes R budget N n c)
    (hle : budget ≤ budget') : x.Finishes R budget' N n c := by
  induction h with
  | here normal forms => exact .here normal forms
  | round hb hstep _ ih => exact .round (Int.lt_of_lt_of_le hb hle) hstep ih

/-! ### One more application -/

/-- The shift of all applications after a store by one. -/
def Renumbering.past (s : Store) : Renumbering := ⟨s.nextVariable, 0, s.nextNode, 1⟩

@[simp] theorem Renumbering.past_onVariable (s : Store) (v : Variable) :
    (past s).onVariable v = v := by
  unfold onVariable past
  split <;> simp

theorem Twins.matches_grown (p : Twins) :
    (Renumbering.past p.left).Matches p.left p.left.grown where
  firstVariable := Int.le_refl _
  nextVariable := (Int.add_zero _).symm
  firstNode := Nat.le_refl _
  nextNode := rfl
  settled m := by
    rcases Nat.lt_or_ge m p.left.nextNode with hm | hm
    · rw [Renumbering.onNode_of_lt hm]
      rfl
    · rw [Renumbering.onNode_of_le hm, Bool.eq_iff_iff]
      have mem_iff (n : Nat) : p.left.settled.contains n = true ↔ n ∈ p.left.settled := Iff.rfl
      have sane : p.left.Sane := .left p
      exact iff_of_false (sane.not_mem_settled (Nat.le_succ_of_le hm)) (sane.not_mem_settled hm)

namespace Term

mutual

/-- Known terms stay as they are. -/
theorem renumber_past {ok : Native → Prop} : ∀ {t : Term}, t.Recorded ok p.heap →
    t.renumber (.past p.left) = t
  | var v, _ => by rw [renumber, Renumbering.past_onVariable]
  | native _, _ => rfl
  | foreign _, _ => rfl
  | named _ d, h => by rw [renumber, renumber_past (t := d) h]
  | lam v b, h => by rw [renumber, renumber_past (t := b) h, Renumbering.past_onVariable]
  | app m h as, ⟨hm, hh, has⟩ => by
    have made : m < p.left.nextNode := by
      by_contra hle
      rw [p.bounded m (Nat.not_lt.mp hle)] at hm
      cases hm
    rw [renumber, Renumbering.onNode_of_lt made, renumber_past hh, renumberAll_past has]

theorem renumberAll_past {ok : Native → Prop} : ∀ {ts : List Term}, RecordedAll ok p.heap ts →
    renumberAll (.past p.left) ts = ts
  | [], _ => rfl
  | _ :: _, ⟨ht, hts⟩ => by rw [renumberAll, renumber_past ht, renumberAll_past hts]

end

mutual

/-- Identities of applications do not matter to the combination that a term is. -/
theorem forms_renumber_past (s : Store) : ∀ t : Term,
    ((t.renumber (.past s)).IsCombination ↔ t.IsCombination) ∧
      (t.renumber (.past s)).combination = t.combination
  | var v => by rw [renumber, Renumbering.past_onVariable]; exact ⟨Iff.rfl, rfl⟩
  | native _ => ⟨Iff.rfl, rfl⟩
  | foreign _ => ⟨Iff.rfl, rfl⟩
  | named _ _ => ⟨Iff.rfl, rfl⟩
  | lam _ _ => ⟨Iff.rfl, rfl⟩
  | app m h as => by
    obtain ⟨-, hh⟩ := forms_renumber_past s h
    obtain ⟨has, hcs⟩ := formsAll_renumber_past s as
    have atom : (h.renumber (.past s)).IsAtom ↔ h.IsAtom := by
      cases h <;> exact Iff.rfl
    have empty : renumberAll (.past s) as = [] ↔ as = [] := by
      rw [renumberAll_eq_map, List.map_eq_nil_iff]
    constructor
    · rw [renumber, IsCombination, IsCombination, atom, has, Ne, Ne, empty]
    · rw [renumber, combination, combination, hh, hcs]

theorem formsAll_renumber_past (s : Store) : ∀ ts : List Term,
    (AreCombinations (renumberAll (.past s) ts) ↔ AreCombinations ts) ∧
      combinations (renumberAll (.past s) ts) = combinations ts
  | [] => ⟨Iff.rfl, rfl⟩
  | t :: ts => by
    obtain ⟨ht, hc⟩ := forms_renumber_past s t
    obtain ⟨hts, hcs⟩ := formsAll_renumber_past s ts
    exact ⟨and_congr ht hts, by rw [renumberAll, combinations, combinations, hc, hcs]⟩

end

theorem forms_renumber_past_iff : (t.renumber (.past s)).Forms c ↔ t.Forms c := by
  obtain ⟨hcomb, heq⟩ := forms_renumber_past s t
  constructor
  · rintro ⟨h, rfl⟩
    exact ⟨hcomb.mp h, heq.symm⟩
  · rintro ⟨h, rfl⟩
    exact ⟨hcomb.mpr h, heq⟩

end Term

namespace Stage

/-- A renumbered stage is left by a renumbered step, and by no other. -/
private theorem Renumbered.step {ρ : Renumbering} {x' : Stage} (hx : x.Renumbered ρ x')
    (made : x.term.MadeOf .pure) :
    Combinatory.Renumbered ρ (x.term.step R) (x'.term.step R) fun o o' =>
      o' = o.map (·.renumber ρ) := by
  rw [hx.term]
  exact Term.renumbered_step made

/-- A run from where another application was made ends alike. -/
theorem Finishes.renumbered {s₀ : Store} {y : Stage} (h : x.Finishes R budget N n c)
    (made : x.term.MadeOf .pure) (hx : x.Renumbered (.past s₀) y) :
    y.Finishes R budget N n c := by
  induction h generalizing y with
  | here normal forms =>
    obtain ⟨_, s', hstep, rfl, -⟩ := (hx.step made).exists_of_ok hx.store normal
    rw [← hx.steps]
    exact .here hstep (hx.term ▸ Term.forms_renumber_past_iff.mpr forms)
  | @round x r s N n c hb hstep _ ih =>
    obtain ⟨_, s', hstep', rfl, hs⟩ := (hx.step made).exists_of_ok hx.store hstep
    have made' := ((Term.ends_step (Kinds.closed_pure R) made).of_ok hstep r rfl).1
    exact .round (hx.steps ▸ hb) hstep' (ih made' ⟨rfl, congrArg (· + r.cost) hx.steps, hs⟩)

/-- And the other way round. -/
theorem Finishes.of_renumbered {s₀ : Store} {y : Stage} (h : y.Finishes R budget N n c)
    (made : x.term.MadeOf .pure) (hx : x.Renumbered (.past s₀) y) :
    x.Finishes R budget N n c := by
  induction h generalizing x with
  | here normal forms =>
    obtain ⟨o, s', hstep, ho, -⟩ := (hx.step made).exists_of_ok_renumbered hx.store normal
    obtain rfl : o = none := Option.map_eq_none_iff.mp ho.symm
    rw [hx.steps]
    rw [hx.term, Term.forms_renumber_past_iff] at forms
    exact .here hstep forms
  | @round y r' s' N n c hb hstep' _ ih =>
    obtain ⟨o, s, hstep, ho, hs⟩ := (hx.step made).exists_of_ok_renumbered hx.store hstep'
    obtain ⟨r, rfl, rfl⟩ := Option.map_eq_some_iff.mp ho.symm
    have made' := ((Term.ends_step (Kinds.closed_pure R) made).of_ok hstep r rfl).1
    exact .round (hx.steps ▸ hb) hstep (ih made' ⟨rfl, congrArg (· + r.cost) hx.steps, hs⟩)

/-- An application that was made in between makes no difference to a run. -/
theorem Sound.finishes_grown_iff (h : x.Sound) :
    Finishes R budget N ⟨x.term, x.steps, x.store.grown⟩ n c ↔ x.Finishes R budget N n c := by
  obtain ⟨p, hp, hrec⟩ := h.recorded
  have same : x.Renumbered (.past p.left) ⟨x.term, x.steps, x.store.grown⟩ :=
    ⟨(Term.renumber_past hrec).symm, rfl, hp ▸ p.matches_grown⟩
  exact ⟨fun h' => h'.of_renumbered h.made same, fun h' => h'.renumbered h.made same⟩

end Stage

/-! ### A head that waits -/

namespace Term

/-- A combinator alone has no step. -/
theorem step_native (R : Rules) (c : Native) (s : Store) : step R (native c) s = .ok none s := by
  rw [step]
  · rfl
  all_goals exact nofun

/-- A head that is no application and waits has no step of its own. -/
theorem step_of_waits {h : Term} {as : List Term} (hflat : h.isApp = false) (hh : h.MadeOf .pure)
    (hw : h.Waits as) (R : Rules) (s : Store) : step R h s = .ok none s := by
  cases h with
  | named info d =>
    obtain ⟨⟨n, hn⟩, -⟩ := hh
    obtain ⟨b, hb, hlt⟩ := hw
    have closed : info.isOpen = false := by
      rw [hn] at hb
      cases hb
      rw [NameInfo.isOpen, hn]
      simp [Amount.isZero, Amount.whole?]
      omega
    rw [step, closed]
    rfl
  | app m h as => cases hflat
  | foreign x => exact hh.elim
  | _ =>
    rw [step]
    · rfl
    all_goals exact nofun

/-- What is remembered has no step. -/
theorem not_mem_settled_of_step {h : Term} {as : List Term} {m : Nat} {r : Stepped} {s' : Store}
    (hstep : step R (app m h as) s = .ok (some r) s') : m ∉ s.settled := by
  intro hm
  have known : Engine.isSettled m s = .ok true s := by
    rw [Engine.isSettled, show s.settled.contains m = true from hm]
  rw [step, Engine.bind_of_ok known, if_pos rfl] at hstep
  cases hstep

/-- Where the head waits and the application is not in the table, the arguments are looked
through. -/
theorem step_app_of_waits {h : Term} {as : List Term} {m : Nat} (hflat : h.isApp = false)
    (hh : h.MadeOf .pure) (hw : h.Waits as) (hm : m ∉ s.settled) :
    step R (app m h as) s = (do
      match ← stepAmong R as with
      | some as' => return some ⟨← apply R h as'.terms, as'.cost⟩
      | none =>
        Engine.settle m
        return none : Engine (Option Stepped)) s := by
  rw [step, Engine.bind_of_ok (Engine.isSettled_of_not_mem hm), if_neg Bool.false_ne_true,
    reduce_of_waits hw, pure_bind]
  exact Engine.bind_of_ok (step_of_waits hflat hh hw R s)

/-- An application takes a step where its head fires or waits. -/
theorem step_app_cases {h : Term} {as : List Term} {m : Nat} {r : Stepped} {s' : Store}
    (hstep : step R (app m h as) s = .ok (some r) s') :
    (∃ v, reduce R h as s = .ok (some v) s' ∧ r = ⟨v, 1⟩) ∨ h.Waits as := by
  rw [step, Engine.bind_of_ok (Engine.isSettled_of_not_mem (not_mem_settled_of_step hstep)),
    if_neg Bool.false_ne_true] at hstep
  obtain ⟨o, s₁, hr, hstep⟩ := Engine.bind_ok_iff.mp hstep
  cases o with
  | some v =>
    cases hstep
    exact .inl ⟨v, hr, rfl⟩
  | none => exact .inr (waits_of_reduce hr)

/-- An application whose head waits takes a step in its arguments. -/
theorem exists_of_step_of_waits {h : Term} {as : List Term} {m : Nat} {r : Stepped} {s' : Store}
    (hflat : h.isApp = false) (hh : h.MadeOf .pure) (hw : h.Waits as)
    (hstep : step R (app m h as) s = .ok (some r) s') :
    ∃ as' s₁, stepAmong R as s = .ok (some as') s₁ ∧ apply R h as'.terms s₁ = .ok r.term s' ∧
      as'.cost = r.cost := by
  rw [step_app_of_waits hflat hh hw (not_mem_settled_of_step hstep)] at hstep
  obtain ⟨o, s₁, has, hstep⟩ := Engine.bind_ok_iff.mp hstep
  cases o with
  | none =>
    obtain ⟨_, _, _, hstep⟩ := Engine.bind_ok_iff.mp hstep
    cases hstep
  | some as' =>
    obtain ⟨u, s₂, hu, hstep⟩ := Engine.bind_ok_iff.mp hstep
    cases hstep
    exact ⟨as', s₁, has, hu, rfl⟩

/-- A step in a list of one term is a step of this term. -/
theorem stepAmong_singleton (R : Rules) (t : Term) :
    stepAmong R [t] = (do
      match ← step R t with
      | some r => return some ⟨[r.term], r.cost⟩
      | none => return none) := by
  rw [stepAmong]
  refine bind_congr fun o => ?_
  cases o with
  | some r => rfl
  | none =>
    dsimp only
    rw [stepAmong, pure_bind]

/-- Only a numeral forms a numeral. -/
theorem Forms.eq_numeral (h : t.Forms (.native (.numeral k))) : t = numeral k := by
  obtain ⟨hcomb, heq⟩ := h
  cases t with
  | native c =>
    cases heq
    rfl
  | app m g as =>
    obtain ⟨-, hne, -⟩ := hcomb
    have spine : (app m g as).combination = g.combination.apps (combinations as) := rfl
    have args : (app m g as).combination.args = [] := by
      rw [heq]
      rfl
    rw [spine, Combination.args_apps, combinations_eq_map, List.append_eq_nil_iff,
      List.map_eq_nil_iff] at args
    exact absurd args.2 hne
  | var v => cases heq
  | _ => exact hcomb.elim

/-- The successor of a numeral is the next one, if that is not too long. -/
theorem apply_successor_numeral (R : Rules) (hk : k + 1 < Native.numeralBound) (s : Store) :
    apply R (native .successor) [numeral k] s = .ok (numeral (k + 1)) s := by
  rw [apply_eq_extend R _ rfl, extend_successor_numeral R hk, extend]
  rfl

/-- Anything but a numeral the successor leaves as it is. -/
theorem replacement_successor (hn : ∀ n, t ≠ numeral n) (R : Rules) :
    Native.replacement R .successor t = pure none := by
  unfold Native.replacement
  cases t with
  | native c => cases c <;> first | rfl | exact absurd rfl (hn _)
  | _ => rfl

/-- A variable and the successor wait for more than one argument. -/
def IsFrame : Term → Prop
  | var _ => True
  | native .successor => True
  | _ => False

namespace IsFrame

variable {h : Term}

theorem isApp_eq_false (hf : h.IsFrame) : h.isApp = false := by
  cases h <;> first | rfl | exact hf.elim

theorem made (hf : h.IsFrame) : h.MadeOf .pure := by
  cases h with
  | var v => trivial
  | native c => cases c <;> first | rfl | exact hf.elim
  | _ => exact hf.elim

theorem waits (hf : h.IsFrame) (t : Term) : h.Waits [t] := by
  cases h with
  | var v => trivial
  | native c => cases c <;> first | exact hf.elim | exact Nat.lt_of_sub_eq_succ rfl
  | _ => exact hf.elim

/-- It is applied to anything but a numeral by making an application. -/
theorem apply_eq (hf : h.IsFrame) (ht : t.MadeOf .pure) (hn : ∀ n, t ≠ numeral n) (R : Rules)
    (s : Store) : apply R h [t] s = .ok (app s.nextNode h [t]) s.grown := by
  rw [apply_eq_extend R h (MadeOfAll.cons ht .nil).firstLiteral_eq_none]
  cases h with
  | var v =>
    rw [extend_var]
    rfl
  | native c =>
    cases c with
    | successor =>
      rw [extend, replacement_successor hn, pure_bind]
      rfl
    | _ => exact hf.elim
  | _ => exact hf.elim

end IsFrame

end Term

namespace Stage

/-- A numeral is a normal form. -/
theorem finishes_numeral (R : Rules) (budget : Int) (k steps : Nat) (s : Store) :
    Finishes R budget 0 ⟨.numeral k, steps, s⟩ steps (.native (.numeral k)) :=
  .here (Term.step_native R _ s) ⟨rfl, rfl⟩

/-- A numeral makes no round. -/
theorem Finishes.of_numeral {steps : Nat}
    (h : Finishes R budget N ⟨.numeral k, steps, s⟩ n c) :
    N = 0 ∧ n = steps ∧ c = .native (.numeral k) := by
  cases h with
  | here _ forms => exact ⟨rfl, rfl, forms.combination.symm⟩
  | round _ hstep _ => cases hstep.symm.trans (Term.step_native R _ s)

/-- Where the term at a stage takes a round, an application of a head that waits takes the same
round. -/
theorem Finishes.exists_of_round {h : Term} (hx : x.Sound)
    (hfin : x.Finishes R budget (N + 1) n c) (hf : h.IsFrame) :
    ∃ r s, (x.steps : Int) < budget ∧
      h.apply R [x.term] x.store = .ok (.app x.store.nextNode h [x.term]) x.store.grown ∧
      Term.step R (.app x.store.nextNode h [x.term]) x.store.grown =
        (do return some ⟨← h.apply R [r.term], r.cost⟩ : Engine (Option Term.Stepped)) s ∧
      Stage.Sound (x.after r s) ∧ (x.after r s).Finishes R budget N n c := by
  have later := hx.finishes_grown_iff.mpr hfin
  cases later with
  | @round _ r s _ _ _ hb hstep rest =>
    have stepped : x.term.step R x.store.grown = .ok (some r) s := hstep
    have alone (n : Nat) : x.term ≠ .numeral n := by
      intro hn
      rw [hn, Term.step_native] at stepped
      cases stepped
    have unknown : x.store.nextNode ∉ x.store.grown.settled :=
      hx.not_mem_settled (Nat.le_refl _)
    refine ⟨r, s, hb, hf.apply_eq hx.made alone R _, ?_, (hx.grown x.steps).after hstep, rest⟩
    rw [Term.step_app_of_waits hf.isApp_eq_false hf.made (hf.waits x.term) unknown,
      Term.stepAmong_singleton, bind_assoc, Engine.bind_of_ok stepped]
    rfl

/-- Below a variable a run ends as it does without, after as many steps. -/
theorem Finishes.headed (hx : x.Sound) (h : x.Finishes R budget N n c) (f : Variable) :
    ∃ t s, (Term.var f).apply R [x.term] x.store = .ok t s ∧
      Finishes R budget N ⟨t, x.steps, s⟩ n (.app (.var f) c) := by
  have frame : (Term.var f).IsFrame := trivial
  induction N generalizing x with
  | zero =>
    have later := hx.finishes_grown_iff.mpr h
    cases later with
    | @here _ s _ normal forms =>
      have idle : x.term.step R x.store.grown = .ok none s := normal
      have happly : (Term.var f).apply R [x.term] x.store =
          .ok (.app x.store.nextNode (.var f) [x.term]) x.store.grown := by
        rw [Term.apply_eq_extend R _ (Term.MadeOfAll.cons hx.made .nil).firstLiteral_eq_none,
          Term.extend_var]
        rfl
      refine ⟨_, _, happly, ?_⟩
      refine .here (s := { s with settled := s.settled.insert x.store.nextNode }) ?_ ?_
      · have unknown : x.store.nextNode ∉ x.store.grown.settled :=
          hx.not_mem_settled (Nat.le_refl _)
        dsimp only
        rw [Term.step_app_of_waits frame.isApp_eq_false frame.made (frame.waits x.term) unknown,
          Term.stepAmong_singleton, bind_assoc, Engine.bind_of_ok idle]
        rfl
      · exact ⟨⟨trivial, List.cons_ne_nil _ _, forms.isCombination, trivial⟩,
          congrArg (Combination.app (.var f)) forms.combination⟩
  | succ N ih =>
    obtain ⟨r, s, hb, happly, hstep, hsound, rest⟩ := h.exists_of_round hx frame
    obtain ⟨u, s', hu, hfin⟩ := ih hsound rest
    refine ⟨_, _, happly, .round (r := ⟨u, r.cost⟩) hb ?_ hfin⟩
    exact hstep.trans (Engine.bind_ok_iff.mpr ⟨u, s', hu, rfl⟩)

/-- Below the successor a run that ends with a numeral ends with the next one, after as many
steps. -/
theorem Finishes.next (hx : x.Sound) (h : x.Finishes R budget N n (.native (.numeral k)))
    (hk : k + 1 < Native.numeralBound) :
    ∃ t s, (Term.native .successor).apply R [x.term] x.store = .ok t s ∧
      Finishes R budget N ⟨t, x.steps, s⟩ n (.native (.numeral (k + 1))) := by
  have frame : (Term.native .successor).IsFrame := trivial
  induction N generalizing x with
  | zero =>
    cases h with
    | here _ forms =>
      rw [forms.eq_numeral]
      exact ⟨_, _, Term.apply_successor_numeral R hk x.store, finishes_numeral R budget _ _ _⟩
  | succ N ih =>
    obtain ⟨r, s, hb, happly, hstep, hsound, rest⟩ := h.exists_of_round hx frame
    obtain ⟨u, s', hu, hfin⟩ := ih hsound rest
    refine ⟨_, _, happly, .round (r := ⟨u, r.cost⟩) hb ?_ hfin⟩
    exact hstep.trans (Engine.bind_ok_iff.mpr ⟨u, s', hu, rfl⟩)

/-- Where a run below the successor ends with a numeral, the run of the argument ends with the one
before. -/
theorem Finishes.exists_of_successor {m steps : Nat} (hx : Stage.Sound ⟨u, steps, s⟩)
    (h : Finishes R budget N ⟨.app m (.native .successor) [u], steps, s⟩ n
      (.native (.numeral k))) :
    ∃ j, k = j + 1 ∧ Finishes R budget N ⟨u, steps, s⟩ n (.native (.numeral j)) := by
  have frame : (Term.native .successor).IsFrame := trivial
  induction N generalizing m u steps s with
  | zero =>
    cases h with
    | here _ forms => cases forms.eq_numeral
  | succ N ih =>
    cases h with
    | @round _ r s₁ _ _ _ hb hstep rest =>
      obtain ⟨as', s₀, hargs, happly, hcost⟩ :=
        Term.exists_of_step_of_waits frame.isApp_eq_false frame.made (frame.waits u) hstep
      rw [Term.stepAmong_singleton] at hargs
      obtain ⟨o, s', hu, hargs⟩ := Engine.bind_ok_iff.mp hargs
      cases o with
      | none => cases hargs
      | some r₀ =>
        cases hargs
        dsimp only at hu happly hcost
        obtain ⟨t, cost⟩ := r
        dsimp only at happly hcost
        subst hcost
        have sound := hx.after hu
        by_cases hn : ∃ j, r₀.term = .numeral j
        · obtain ⟨j, hj⟩ := hn
          have hlt : j + 1 < Native.numeralBound := by
            by_contra hlt
            rw [hj, Term.apply_successor_tooLong R hlt] at happly
            cases happly
          rw [hj, Term.apply_successor_numeral R hlt] at happly
          cases happly
          obtain ⟨rfl, rfl, hk⟩ := rest.of_numeral
          cases hk
          refine ⟨j, rfl, .round hb hu ?_⟩
          rw [Stage.after, hj]
          exact finishes_numeral R budget j _ _
        · have made : r₀.term.MadeOf .pure := sound.made
          rw [frame.apply_eq made fun j hj => hn ⟨j, hj⟩] at happly
          cases happly
          obtain ⟨j, rfl, hfin⟩ := ih (sound.grown (steps + r₀.cost)) rest
          exact ⟨j, rfl, .round hb hu (sound.finishes_grown_iff.mp hfin)⟩

/-! ### Runs -/

/-- Below the successor a run that ends with the longest numeral fails. -/
theorem Finishes.tooLong (hx : x.Sound) (h : x.Finishes R budget N n (.native (.numeral k)))
    (hk : ¬ k + 1 < Native.numeralBound) (patience : Nat) :
    ∃ s, (do Term.running R budget (← (Term.native .successor).apply R [x.term]) x.steps patience)
      x.store = .error .numeralTooLong s := by
  have frame : (Term.native .successor).IsFrame := trivial
  induction N generalizing x patience with
  | zero =>
    cases h with
    | here _ forms =>
      refine ⟨x.store, Engine.bind_of_error ?_⟩
      rw [forms.eq_numeral]
      exact Term.apply_successor_tooLong R hk x.store
  | succ N ih =>
    obtain ⟨r, s, hb, happly, hstep, hsound, rest⟩ := h.exists_of_round hx frame
    have quiet : R.quiet (.app x.store.nextNode (.native .successor) [x.term]) = true :=
      Term.MadeOf.quiet (Kinds.closed_pure R) ⟨nofun, frame.made, hx.made, trivial⟩
    rw [Engine.bind_of_ok happly]
    cases hres : (Term.native .successor).apply R [r.term] s with
    | ok u s₂ =>
      rw [Engine.bind_of_ok hres] at hstep
      obtain ⟨left, hrun⟩ := Term.exists_runFrom_of_step quiet hb hstep patience
      obtain ⟨s', failed⟩ := ih hsound rest left
      exact ⟨s', hrun.trans ((Engine.bind_of_ok hres).symm.trans failed)⟩
    | error e s₂ =>
      rw [Engine.bind_of_error hres] at hstep
      obtain ⟨s', failed⟩ := ih hsound rest patience
      cases (Engine.bind_of_error hres).symm.trans failed
      refine ⟨s₂, ?_⟩
      rw [Term.running_eq, if_pos hb]
      exact Engine.bind_of_error hstep

/-- So the run ends with this normal form. -/
theorem Finishes.exists_runFrom (h : x.Finishes R budget N n c) (made : x.term.MadeOf .pure)
    (patience : Nat) : ∃ u s,
      Term.runFrom R budget x.term x.steps patience x.store = .ok ⟨u, n, true⟩ s ∧ u.Forms c := by
  induction h generalizing patience with
  | here normal forms => exact ⟨_, _, Term.runFrom_of_normal normal, forms⟩
  | @round x r s N n c hb hstep _ ih =>
    obtain ⟨left, hrun⟩ :=
      Term.exists_runFrom_of_step (made.quiet (Kinds.closed_pure R)) hb hstep patience
    obtain ⟨u, s', hrest, forms⟩ :=
      ih ((Term.ends_step (Kinds.closed_pure R) made).of_ok hstep r rfl).1 left
    exact ⟨u, s', hrun.trans hrest, forms⟩

end Stage

/-- Rounds that lead to a normal form are the rounds of a run that ends with it. -/
private theorem Trail.finishes {l : List Run} (h : Trail R budget x l y)
    (normal : y.term.step R y.store = .ok none s) (forms : y.term.Forms c) :
    x.Finishes R budget l.length y.steps c := by
  induction h with
  | here => exact .here normal forms
  | round hb hstep _ ih => exact .round hb hstep (ih normal forms)

/-- A run that is final has made a number of rounds. -/
theorem Stage.exists_finishes (made : x.term.MadeOf .pure) {patience : Nat}
    (hrun : Term.runFrom R budget x.term x.steps patience x.store = .ok ⟨u, n, true⟩ s)
    (forms : u.Forms c) : ∃ N, x.Finishes R budget N n c := by
  obtain ⟨l, y, trail, last⟩ := Trail.exists_last (Kinds.closed_pure R) budget x made
  obtain ⟨left, ran⟩ := trail.exists_runFrom (Kinds.closed_pure R) made patience
  rw [hrun, last.runFrom_eq] at ran
  cases hstep : y.term.step R y.store with
  | error e s' =>
    rw [hstep] at ran
    cases ran
  | ok o s' =>
    rw [hstep] at ran
    cases o with
    | some r => cases ran
    | none =>
      cases ran
      exact ⟨_, trail.finishes hstep forms⟩

end Combinatory
