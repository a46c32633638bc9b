import Combinatory.Proofs.Combination.Runs
import Combinatory.Proofs.Settled
import Combinatory.Proofs.Trail

/-!
# Runs are cuts of walks

A run with any budget ends with the first snapshot of the unbounded walk that is final or has spent
the budget, and it is final exactly when the term has no step left
(`Workspace.Reachable.run_cuts_walk`). The walk with a budget does not show what the last unit of
the budget paid for: it ends where the run ends only if the run has budget left, and else one
rewrite before (`Term.getLast?_trace`).
-/

namespace Combinatory

open Engine (Ends)

variable {K : Kinds} {R : Rules} {budget : Int} {x y : Stage} {l : List Run}

/-! ### Idle terms -/

namespace Term

mutual

/-- An idle term has no step, whatever is remembered and whatever the rules. At most the table of
settled applications is changed by looking for one. -/
theorem exists_table_of_idle (R : Rules) : ∀ {t : Term}, t.Idle → ∀ s : Store,
    ∃ table, step R t s = .ok none { s with settled := table }
  | var v, _, s => ⟨s.settled, by unfold step; rfl⟩
  | native c, _, s => ⟨s.settled, by unfold step; rfl⟩
  | foreign x, _, s => ⟨s.settled, by unfold step; rfl⟩
  | lam v b, _, s => ⟨s.settled, by unfold step; rfl⟩
  | named info d, h, s => by
    have closed : info.isOpen = false := h
    rw [step, closed]
    exact ⟨s.settled, rfl⟩
  | app n hd as, ⟨hw, hh, has⟩, s => by
    obtain ⟨table₁, h₁⟩ := exists_table_of_idle R hh s
    obtain ⟨table₂, h₂⟩ := exists_tableAmong_of_idle R has { s with settled := table₁ }
    rw [step, reduce_of_waits hw]
    cases hn : s.settled.contains n with
    | true =>
      refine ⟨s.settled, ?_⟩
      have known : Engine.isSettled n s = .ok true s := congrArg (EStateM.Result.ok · s) hn
      exact Engine.bind_ok_iff.mpr ⟨true, s, known, rfl⟩
    | false =>
      refine ⟨table₂.insert n, ?_⟩
      have known : Engine.isSettled n s = .ok false s := congrArg (EStateM.Result.ok · s) hn
      refine Engine.bind_ok_iff.mpr ⟨false, s, known, ?_⟩
      refine Engine.bind_ok_iff.mpr ⟨none, s, rfl, ?_⟩
      refine Engine.bind_ok_iff.mpr ⟨none, _, h₁, ?_⟩
      exact Engine.bind_ok_iff.mpr ⟨none, _, h₂, rfl⟩

theorem exists_tableAmong_of_idle (R : Rules) : ∀ {as : List Term}, IdleAll as → ∀ s : Store,
    ∃ table, stepAmong R as s = .ok none { s with settled := table }
  | [], _, s => ⟨s.settled, by rw [stepAmong]; rfl⟩
  | a :: as, ⟨ha, has⟩, s => by
    obtain ⟨table₁, h₁⟩ := exists_table_of_idle R ha s
    obtain ⟨table₂, h₂⟩ := exists_tableAmong_of_idle R has { s with settled := table₁ }
    rw [stepAmong.eq_2]
    refine ⟨table₂, Engine.bind_ok_iff.mpr ⟨none, _, h₁, ?_⟩⟩
    exact Engine.bind_ok_iff.mpr ⟨none, _, h₂, rfl⟩

end

/-- An idle term has no step, whatever is remembered and whatever the rules. -/
theorem exists_step_of_idle (R : Rules) {t : Term} (h : t.Idle) (s : Store) :
    ∃ s', step R t s = .ok none s' := by
  obtain ⟨table, hstep⟩ := exists_table_of_idle R h s
  exact ⟨_, hstep⟩

/-- A run of an idle term takes no step and is final, with any budget. -/
theorem exists_run_of_idle (R : Rules) {t : Term} (h : t.Idle) (m : Int) (strict : Bool)
    (s : Store) : ∃ s', t.run R (.number m) [] strict s = .ok ⟨t, 0, true⟩ s' := by
  obtain ⟨s', hstep⟩ := exists_step_of_idle R h s
  exact ⟨s', run_nil_ok_iff.mpr ⟨m, rfl, runFrom_of_normal hstep, fun _ => rfl⟩⟩

variable {ok : Native → Prop} {p : Twins} {t : Term} {s : Store}

/-- A term that is found to have no step is idle, if only idle terms are remembered. -/
theorem Recorded.idle_of_step (ht : t.Recorded ok p.heap) (hR : R.Steady ok p)
    (h : step R t p.left = .ok none s) : t.Idle := by
  obtain ⟨p', -, -, hscan⟩ := (alike_step hR ht).exists_of_ok h
  exact hscan.idle rfl

end Term

/-! ### Along a trail -/

/-- A run without arguments sets out from the term. -/
private theorem Term.run_nil_eq (R : Rules) (m : Int) (t : Term) (s : Store) :
    t.run R (.number m) [] false s = t.runFrom R m 0 Term.patience s := by
  have bound : Engine.bound (.number m) = pure m := rfl
  unfold run
  rw [apply_nil, bound, pure_bind, pure_bind]
  simp only [Bool.false_and, Bool.false_eq_true, if_false]
  exact congrFun (bind_pure _) s

/-- A listing behind some items. -/
def Listing.behind {α : Type} (items : List α) (rest : Listing α) : Listing α :=
  ⟨items ++ rest.items, rest.failure⟩

/-- What a walk lists from a stage, as long as it is unbounded. -/
private abbrev Stage.list (R : Rules) (limit : Nat) (x : Stage) : Engine (Listing Run) :=
  Listing.unfold (Walk.next R none) .ok limit ⟨x.term, x.steps, false⟩

/-- All that a walk with a budget lists from a stage. -/
private abbrev Stage.trace (R : Rules) (budget : Int) (x : Stage) (patience : Nat) :
    Listing Run × Store :=
  x.term.traceFrom R .ok budget x.steps patience x.store

/-- One more item is listed before the others. -/
private theorem Listing.unfold_succ {α σ : Type} (next : σ → Engine (Option (α × σ)))
    (limit : Nat) (seed : σ) (s : Store) :
    unfold next (.ok : α → Except Failure α) (limit + 1) seed s =
      match next seed s with
      | .error e s => .ok ⟨[], some e⟩ s
      | .ok none s => .ok ⟨[], none⟩ s
      | .ok (some (a, seed)) s =>
        match unfold next (.ok : α → Except Failure α) limit seed s with
        | .error e s => .error e s
        | .ok rest s => .ok (rest.behind [a]) s := by
  rw [unfold]
  rfl

/-- A listing of an unfolded sequence has a result. -/
private theorem Listing.exists_unfold {α σ : Type} (next : σ → Engine (Option (α × σ)))
    (limit : Nat) (seed : σ) (s : Store) :
    ∃ l s', unfold next (.ok : α → Except Failure α) limit seed s = .ok l s' := by
  induction limit generalizing seed s with
  | zero => exact ⟨_, s, rfl⟩
  | succ limit ih =>
    rw [unfold_succ]
    rcases next seed s with ⟨_ | ⟨a, seed'⟩, s₁⟩ | ⟨e, s₁⟩
    · exact ⟨_, s₁, rfl⟩
    · obtain ⟨l, s', h⟩ := ih seed' s₁
      exact ⟨l.behind [a], s', by dsimp only; rw [h]⟩
    · exact ⟨_, s₁, rfl⟩

/-- An unbounded walk looks for a step of the term that it shows. -/
private theorem Stage.next_eq (R : Rules) (x : Stage) :
    Walk.next R none ⟨x.term, x.steps, false⟩ x.store =
      match x.term.step R x.store with
      | .error e s => .error e s
      | .ok none s => .ok (some (⟨x.term, x.steps, true⟩, ⟨x.term, x.steps, true⟩)) s
      | .ok (some r) s => .ok (some (x.snapshot, ⟨r.term, x.steps + r.cost, false⟩)) s := by
  change EStateM.bind (x.term.step R) _ x.store = _
  unfold EStateM.bind
  rcases x.term.step R x.store with ⟨_ | r, s⟩ | ⟨e, s⟩ <;> rfl

/-- It goes on from what the step gives. -/
private theorem Stage.list_of_step {r : Term.Stepped} {s s' : Store} {limit : Nat}
    {rest : Listing Run} (hstep : x.term.step R x.store = .ok (some r) s)
    (hrest : (x.after r s).list R limit s = .ok rest s') :
    x.list R (limit + 1) x.store = .ok (rest.behind [x.snapshot]) s' := by
  simp only [Stage.list, Stage.after] at hrest
  simp only [Stage.list, Listing.unfold_succ, Stage.next_eq, hstep, hrest]

/-- It ends with a term that has no step. -/
private theorem Stage.list_of_normal {s : Store} (limit : Nat)
    (hstep : x.term.step R x.store = .ok none s) :
    x.list R (limit + 1) x.store = .ok ⟨[⟨x.term, x.steps, true⟩], none⟩ s := by
  simp only [Stage.list, Listing.unfold_succ, Stage.next_eq, hstep]
  cases limit <;> rfl

/-- It ends with a failure to take a step. -/
private theorem Stage.list_of_error {s : Store} {e : Failure} (limit : Nat)
    (hstep : x.term.step R x.store = .error e s) :
    x.list R (limit + 1) x.store = .ok ⟨[], some e⟩ s := by
  simp only [Stage.list, Listing.unfold_succ, Stage.next_eq, hstep]

/-- A walk with a budget shows terms while the budget lasts. -/
private theorem Stage.exists_trace_of_step {r : Term.Stepped} {s : Store}
    (hq : R.quiet x.term = true) (hb : (x.steps : Int) < budget)
    (hstep : x.term.step R x.store = .ok (some r) s) (patience : Nat) :
    ∃ left, x.trace R budget patience =
      (((x.after r s).trace R budget left).1.behind [x.snapshot],
        ((x.after r s).trace R budget left).2) := by
  rw [Stage.trace, Term.traceFrom, if_pos hb]
  split
  · next he => rw [hstep] at he; cases he
  · next he => rw [hstep] at he; cases he
  · next he =>
    rw [hstep] at he
    cases he
    dsimp only
    by_cases hc : r.cost = 0
    · refine ⟨patience - 1, ?_⟩
      rw [dif_pos hc, dif_pos (by rw [Rules.goesOn, hq, Bool.or_true])]
      simp only [Stage.after, hc, Nat.add_zero]
      rfl
    · exact ⟨patience, by rw [dif_neg hc]; rfl⟩

namespace Trail

/-- An unbounded walk shows the snapshots of a trail, and goes on from its end. -/
private theorem list (h : Trail R budget x l y) {limit : Nat} {rest : Listing Run} {s : Store}
    (hrest : y.list R limit y.store = .ok rest s) :
    x.list R (l.length + limit) x.store = .ok (rest.behind l) s := by
  induction h with
  | here => rw [List.length_nil, Nat.zero_add, hrest]; rfl
  | @round x y r s₁ l _ hstep _ ih =>
    rw [List.length_cons, Nat.add_right_comm]
    exact Stage.list_of_step hstep (ih hrest)

/-- A walk with a budget shows the snapshots of a trail, and goes on from its end. -/
private theorem exists_trace (hK : K.Closed R) (h : Trail R budget x l y) (hx : x.term.MadeOf K)
    (patience : Nat) : ∃ left, x.trace R budget patience =
      ((y.trace R budget left).1.behind l, (y.trace R budget left).2) := by
  induction h generalizing patience with
  | here => exact ⟨patience, rfl⟩
  | round hb hstep _ ih =>
    obtain ⟨left, hfirst⟩ := Stage.exists_trace_of_step (hx.quiet hK) hb hstep patience
    obtain ⟨left', hrest⟩ := ih ((Term.ends_step hK hx).of_ok hstep _ rfl).1 left
    refine ⟨left', ?_⟩
    rw [hfirst, hrest]
    rfl

/-- Over twins a trail leads to later twins, at a recorded term. -/
theorem exists_twins {ok : Native → Prop} {p : Twins} (h : Trail R budget x l y)
    (hR : R.Steady ok p) (hx : x.term.Recorded ok p.heap) (hs : x.store = p.left) :
    ∃ p', p ≤ p' ∧ y.store = p'.left ∧ y.term.Recorded ok p'.heap := by
  induction h generalizing p with
  | here => exact ⟨p, p.le_refl, hs, hx⟩
  | round _ hstep _ ih =>
    rw [hs] at hstep
    obtain ⟨p₁, hp₁, rfl, hscan⟩ := (Term.alike_step hR hx).exists_of_ok hstep
    obtain ⟨p₂, hp₂, hy, hrec⟩ := ih (hR.later hp₁) (hscan.recorded _ rfl) rfl
    exact ⟨p₂, Twins.le_trans hp₁ hp₂, hy, hrec⟩

end Trail

/-! ### Runs and unbounded walks -/

/-- Whether a snapshot ends a run with a budget: it is final, or the budget is spent. -/
def Run.stops (budget : Int) (r : Run) : Bool := r.final || decide (budget ≤ r.steps)

/-- Whether the first snapshot of the unbounded walk of a term that ends a run with a budget is a
given one. A listing shows it if the limit is large enough. -/
def Term.CutsAt (R : Rules) (budget : Int) (t : Term) (s : Store) (out : Run) : Prop :=
  ∃ i, ∀ limit, i < limit → ∃ rest s', t.walk R none limit .ok s = .ok rest s' ∧
    rest.items.find? (·.stops budget) = some out

/-- Whether the unbounded walk of a term fails before any snapshot ends a run with a budget. -/
def Term.FailsAt (R : Rules) (budget : Int) (t : Term) (s : Store) (e : Failure) : Prop :=
  ∃ i, ∀ limit, i < limit → ∃ rest s', t.walk R none limit .ok s = .ok rest s' ∧
    rest.failure = some e ∧ ∀ r ∈ rest.items, r.stops budget = false

namespace Trail

/-- No snapshot of a trail ends the run. -/
private theorem stops_eq_false (h : Trail R budget x l y) : ∀ r ∈ l, r.stops budget = false := by
  intro r hr
  obtain ⟨hfinal, hsteps⟩ := h.forall_mem r hr
  rw [Run.stops, hfinal, Bool.false_or, decide_eq_false_iff_not]
  exact Int.not_le.mpr hsteps

/-- The first snapshot after a trail that a run does not go beyond is the one that ends it. -/
private theorem cutsAt {o : Option Term.Stepped} {s : Store} (h : Trail R budget x l y)
    (hlast : y.Last R budget) (hx : x.steps = 0) (hstep : y.term.step R y.store = .ok o s) :
    x.term.CutsAt R budget x.store ⟨y.term, y.steps, o.isNone⟩ := by
  refine ⟨l.length, fun limit hlimit => ?_⟩
  obtain ⟨n, rfl⟩ : ∃ n, limit = l.length + (n + 1) := ⟨limit - l.length - 1, by omega⟩
  obtain ⟨rest, s', hrest, hhead⟩ : ∃ rest s', y.list R (n + 1) y.store = .ok rest s' ∧
      rest.items.find? (·.stops budget) = some ⟨y.term, y.steps, o.isNone⟩ := by
    cases o with
    | none => exact ⟨_, s, Stage.list_of_normal n hstep, rfl⟩
    | some r =>
      obtain ⟨rest, s', hrest⟩ := Listing.exists_unfold (Walk.next R none) n
        ⟨(y.after r s).term, (y.after r s).steps, false⟩ s
      refine ⟨_, s', Stage.list_of_step hstep hrest, ?_⟩
      have spent : y.snapshot.stops budget = true := by
        rw [Run.stops, Bool.or_eq_true, decide_eq_true_iff]
        exact .inr (hlast r s hstep)
      exact List.find?_cons_of_pos spent
  have listed := h.list hrest
  rw [Stage.list, hx] at listed
  refine ⟨_, s', listed, ?_⟩
  rw [Listing.behind, List.find?_append, List.find?_eq_none.mpr, Option.none_or]
  · exact hhead
  · exact fun r hr => Bool.eq_false_iff.mp (h.stops_eq_false r hr)

/-- A trail that ends with a failure is a walk that does. -/
private theorem failsAt {e : Failure} {s : Store} (h : Trail R budget x l y) (hx : x.steps = 0)
    (hstep : y.term.step R y.store = .error e s) : x.term.FailsAt R budget x.store e := by
  refine ⟨l.length, fun limit hlimit => ?_⟩
  obtain ⟨n, rfl⟩ : ∃ n, limit = l.length + (n + 1) := ⟨limit - l.length - 1, by omega⟩
  have listed := h.list (Stage.list_of_error n hstep)
  rw [Stage.list, hx] at listed
  refine ⟨_, s, listed, rfl, ?_⟩
  simpa only [Listing.behind, List.append_nil] using h.stops_eq_false

end Trail

namespace Workspace

variable {w : Workspace} {t : Term}

/-- A run with any budget, of a term for which rules always give terms, is a cut of the unbounded
walk: it ends with the first snapshot that is final or has spent the budget. It is final exactly
when the term that it ends with has no step. If it is not, exactly the budget is spent; if it is, a
run of that term ends at once, with any budget, whatever has been computed since. The run fails only
where the walk does, because a numeral gets too long. -/
theorem Reachable.run_cuts_walk (h : w.Reachable) (hR : R.SteadyOver w.terms) (hK : K.Closed R)
    (ht : t ∈ w.terms) (made : t.MadeOf K) (m : Int) :
    (∃ out s, t.run R (.number m) [] false w.store = .ok out s ∧
      t.CutsAt R m w.store out ∧
      (out.final = true ↔ ∃ s', out.term.step R s = .ok none s') ∧
      (out.final = false → (out.steps : Int) = max m 0) ∧
      (out.final = true → ∀ R' n strict s', ∃ s'',
        out.term.run R' (.number n) [] strict s' = .ok ⟨out.term, 0, true⟩ s'')) ∨
    ∃ e s, t.run R (.number m) [] false w.store = .error e s ∧ K.Obstacle e ∧
      t.FailsAt R m w.store e := by
  let x : Stage := ⟨t, 0, w.store⟩
  have made : x.term.MadeOf K := made
  obtain ⟨l, y, trail, last⟩ := Trail.exists_last hK m x made
  obtain ⟨left, hrun⟩ := trail.exists_runFrom hK made Term.patience
  rw [last.runFrom_eq] at hrun
  change t.runFrom R m 0 Term.patience w.store = _ at hrun
  rw [← Term.run_nil_eq] at hrun
  cases hstep : y.term.step R y.store with
  | error e s =>
    rw [hstep] at hrun
    exact .inr ⟨e, s, hrun, (Term.ends_step hK (trail.madeOf hK made)).of_error hstep,
      trail.failsAt rfl hstep⟩
  | ok o s =>
    rw [hstep] at hrun
    obtain ⟨p, hp⟩ := h.exists_twins
    have known : t.Known p.heap := Term.recordedAll_iff.mp hp.known t ht
    have steady := hR p hp.known
    obtain ⟨p₁, hp₁, hy, hrec⟩ := trail.exists_twins steady known hp.left.symm
    rw [hy] at hstep
    obtain ⟨p₂, hp₂, rfl, -⟩ := (Term.alike_step (steady.later hp₁) hrec).exists_of_ok hstep
    -- a look at the term finds no step exactly when the term is idle, now and later
    have idle : o.isNone = true ↔ y.term.Idle := by
      constructor
      · intro ho
        rw [Option.isNone_iff_eq_none] at ho
        exact hrec.idle_of_step (steady.later hp₁) (ho ▸ hstep)
      · intro hidle
        obtain ⟨s', hnone⟩ := Term.exists_step_of_idle R hidle p₁.left
        rw [hstep] at hnone
        cases hnone
        rfl
    rw [← hy] at hstep
    refine .inl ⟨_, p₂.left, hrun, trail.cutsAt last rfl hstep, ?_, ?_, ?_⟩
    · refine idle.trans ⟨fun hidle => Term.exists_step_of_idle R hidle _, fun ⟨s', hnone⟩ => ?_⟩
      exact (hrec.later hp₂).idle_of_step (steady.later (Twins.le_trans hp₁ hp₂)) hnone
    · intro ho
      obtain ⟨r, rfl⟩ := Option.isSome_iff_exists.mp (Option.isNone_eq_false_iff.mp ho)
      have spent := last r _ hstep
      have within := trail.steps_le hK made
      dsimp only [x] at within ⊢
      omega
    · exact fun ho R' n strict s' => Term.exists_run_of_idle R' (idle.mp ho) n strict s'

/-! ### A rule of the user -/

namespace Selecting

/-- A variable that was asked for. -/
def asked : Variable := ⟨"x", 1⟩

/-- A combinator that gives its second argument. -/
def second : UserNative := ⟨0, "F", 2, .null, false, by decide⟩

/-- The application `I x`. -/
def argument : Term := .app 1 (.native .I) [.var asked]

/-- The application `F x (I x)`. -/
def term : Term := .app 2 (.native (.user second)) [.var asked, argument]

/-- What is at hand after both were built. -/
def workspace : Workspace :=
  ⟨⟨2, 3, ∅⟩, [asked], [term, argument, .native (.user second), .native .I, .var asked]⟩

/-- The rule of the combinator. -/
def rules : Rules :=
  { Rules.undeclared with contract := fun _ as => pure (as.getD 1 (.native .I)) }

theorem steadyOver_rules (ts : List Term) : rules.SteadyOver ts := fun p h =>
  { Rules.steadyOver_undeclared ts p h with
    contract := fun _ _ p' _ as has => by
      refine .pure ?_
      rw [List.getD_eq_getElem?_getD]
      cases h : as[1]? with
      | none => exact trivial
      | some a => exact Term.recordedAll_iff.mp has a (List.mem_of_getElem? h) }

/-- The combinators of the sample. -/
def kinds : Kinds := ⟨fun c => c = .I ∨ c = .user second, fun _ => False, False⟩

theorem closed_rules : kinds.Closed rules where
  numeral h := by rcases h with h | h <;> cases h
  toNumeral h := by rcases h with h | h <;> cases h
  lambdaMark h := by rcases h with h | h <;> cases h
  hookless u h := by
    rcases h with h | h <;> cases h
    rfl
  contract _ _ as _ has := by
    refine .pure ?_
    rw [List.getD_eq_getElem?_getD]
    cases h : as[1]? with
    | none => exact .inl rfl
    | some a => exact Term.madeOfAll_iff.mp has a (List.mem_of_getElem? h)
  arity _ h := h.elim

/-- The workspace is reached by identifying the combinator and applying it. -/
theorem reachable : workspace.Reachable := by
  have minted : Reachable ⟨⟨2, 0, ∅⟩, [asked], [.var asked]⟩ := .single (.mint (v := asked) rfl)
  have declared : Reachable
      ⟨⟨2, 1, ∅⟩, [asked], [.native (.user second), .native .I, .var asked]⟩ :=
    ((minted.tail (.identify (n := 0) rfl)).tail (.native .I)).tail (.native (.user second))
  have applied : Reachable
      ⟨⟨2, 2, ∅⟩, [asked], [argument, .native (.user second), .native .I, .var asked]⟩ := by
    refine declared.tail
      (.call (c := .apply (.native .I) [.var asked]) (steadyOver_rules _) ?_ rfl)
    simp [Call.inputs]
  refine applied.tail (.call
    (c := .apply (.native (.user second)) [.var asked, argument]) (steadyOver_rules _) ?_ rfl)
  simp [Call.inputs]

/-- The argument is run to the variable in one step. -/
theorem step_argument :
    argument.step rules workspace.store = .ok (some ⟨.var asked, 1⟩) workspace.store := by
  simp [argument, workspace, Term.step, Engine.isSettled, Term.reduce, Native.contract,
    Native.arity, Term.apply_nil, bind, EStateM.bind, pure, EStateM.pure]

/-- The variable is reached with the last unit of the budget. -/
theorem run_term : term.run rules (.number 2) [] false workspace.store =
    .ok ⟨.var asked, 2, true⟩ workspace.store := by
  have selected : term.step rules workspace.store = .ok (some ⟨argument, 1⟩) workspace.store := by
    simp [term, workspace, rules, second, Term.step, Engine.isSettled, Term.reduce,
      Native.contract, Native.arity, Term.apply_nil, argument, bind, EStateM.bind, pure,
      EStateM.pure]
  rw [Term.run_nil_eq, Term.runFrom_of_step (by decide) selected Nat.one_ne_zero,
    Term.runFrom_of_step (by decide) step_argument Nat.one_ne_zero]
  exact Term.runFrom_of_normal rfl

/-- Every budget of at least one is enough for the argument. -/
theorem run_argument {m : Int} (hm : 1 ≤ m) :
    argument.run rules (.number m) [] false workspace.store =
      .ok ⟨.var asked, 1, true⟩ workspace.store := by
  rw [Term.run_nil_eq, Term.runFrom_of_step (Int.lt_iff_add_one_le.mpr hm) step_argument
    Nat.one_ne_zero]
  exact Term.runFrom_of_normal rfl

end Selecting

/-- The run cuts the walk at its last snapshot, and a run of the variable ends at once. -/
theorem run_cuts_walk_selecting :
    Selecting.workspace.Reachable ∧ Selecting.rules.SteadyOver Selecting.workspace.terms ∧
      Selecting.kinds.Closed Selecting.rules ∧ Selecting.term ∈ Selecting.workspace.terms ∧
      Selecting.term.MadeOf Selecting.kinds ∧
      Selecting.term.CutsAt Selecting.rules 2 Selecting.workspace.store
        ⟨.var Selecting.asked, 2, true⟩ ∧
      ∃ s, (Term.var Selecting.asked).run Selecting.rules (.number (-1)) [] true
        Selecting.workspace.store = .ok ⟨.var Selecting.asked, 0, true⟩ s := by
  have steady := Selecting.steadyOver_rules Selecting.workspace.terms
  have mem : Selecting.term ∈ Selecting.workspace.terms := List.mem_cons_self
  have made : Selecting.term.MadeOf Selecting.kinds :=
    ⟨nofun, .inr rfl, trivial, ⟨nofun, .inl rfl, trivial, trivial⟩, trivial⟩
  refine ⟨Selecting.reachable, steady, Selecting.closed_rules, mem, made, ?_⟩
  rcases Selecting.reachable.run_cuts_walk steady Selecting.closed_rules mem made 2 with
    ⟨out, s, hrun, cuts, -, -, again⟩ | ⟨e, s, hrun, -⟩
  · rw [Selecting.run_term] at hrun
    cases hrun
    exact ⟨cuts, again rfl _ _ _ _⟩
  · rw [Selecting.run_term] at hrun
    cases hrun

end Workspace

/-! ### Runs and walks with a budget -/

namespace Trail

/-- The last snapshot of a trail is one round before its end. -/
private theorem exists_getLast? (h : Trail R budget x l y) (hl : l ≠ []) :
    ∃ z r s, l.getLast? = some z.snapshot ∧ (z.steps : Int) < budget ∧
      z.term.step R z.store = .ok (some r) s ∧ y = z.after r s ∧ ∃ l', Trail R budget x l' z := by
  induction h with
  | here => exact absurd rfl hl
  | @round x y r s l hb hstep rest ih =>
    cases l with
    | nil =>
      cases rest
      exact ⟨x, r, s, rfl, hb, hstep, rfl, [], .here⟩
    | cons a l =>
      obtain ⟨z, r', s', hlast, hbz, hz, hy, l', hl'⟩ := ih nofun
      refine ⟨z, r', s', ?_, hbz, hz, hy, _, .round hb hstep hl'⟩
      rw [List.getLast?_cons_cons, hlast]

end Trail

/-- A walk with a budget shows nothing of a stage at which the budget is spent. -/
private theorem Stage.trace_of_spent (h : budget ≤ (x.steps : Int)) (patience : Nat) :
    x.trace R budget patience = (⟨[], none⟩, x.store) := by
  rw [Stage.trace, Term.traceFrom, if_neg (Int.not_lt.mpr h)]

/-- It ends with a term that has no step. -/
private theorem Stage.trace_of_normal {s : Store} (hb : (x.steps : Int) < budget)
    (hstep : x.term.step R x.store = .ok none s) (patience : Nat) :
    x.trace R budget patience = (⟨[⟨x.term, x.steps, true⟩], none⟩, s) := by
  rw [Stage.trace, Term.traceFrom, if_pos hb]
  split
  · next he => rw [hstep] at he; cases he
  · next he =>
    rw [hstep] at he
    cases he
    rfl
  · next he => rw [hstep] at he; cases he

/-- A walk with a budget of at least one ends where the run with this budget ends, as long as the
run leaves some of the budget. A run that spends it all is one rewrite ahead: the walk ends with a
snapshot that is not final, of the term before the last rewrite, even if the run is final. -/
theorem Term.getLast?_trace (hK : K.Closed R) {t : Term} (made : t.MadeOf K) {m : Int}
    (hm : 1 ≤ m) {s s' : Store} {out : Run}
    (hrun : t.run R (.number m) [] false s = .ok out s') :
    ∃ shown s'', t.trace R (some (.number m)) .ok s = .ok shown s'' ∧ shown.failure = none ∧
      ((out.steps : Int) < m → shown.items.getLast? = some out) ∧
      (m ≤ out.steps → ∃ last, shown.items.getLast? = some last ∧ last.final = false ∧
        out.steps = last.steps + 1 ∧
        ∃ s₁ s₂, last.term.step R s₁ = .ok (some ⟨out.term, 1⟩) s₂) := by
  let x : Stage := ⟨t, 0, s⟩
  have made : x.term.MadeOf K := made
  obtain ⟨l, y, trail, last⟩ := Trail.exists_last hK m x made
  obtain ⟨left, ran⟩ := trail.exists_runFrom hK made Term.patience
  obtain ⟨left', traced⟩ := trail.exists_trace hK made Term.patience
  rw [last.runFrom_eq] at ran
  change t.runFrom R m 0 Term.patience s = _ at ran
  rw [← Term.run_nil_eq, hrun] at ran
  refine ⟨(x.trace R m Term.patience).1, (x.trace R m Term.patience).2, rfl, ?_⟩
  cases hstep : y.term.step R y.store with
  | error e s₁ =>
    rw [hstep] at ran
    cases ran
  | ok o s₁ =>
    rw [hstep] at ran
    cases ran
    by_cases hb : (y.steps : Int) < m
    · -- there is budget left, so there is no step
      have none : o = none := by
        cases o with
        | none => rfl
        | some r => exact absurd (last r _ hstep) (Int.not_le.mpr hb)
      subst none
      rw [traced, Stage.trace_of_normal hb hstep]
      refine ⟨rfl, fun _ => ?_, fun spent => absurd spent (Int.not_le.mpr hb)⟩
      exact List.getLast?_concat
    · rw [traced, Stage.trace_of_spent (Int.not_lt.mp hb)]
      refine ⟨rfl, fun left => absurd left hb, fun spent => ?_⟩
      have rounds : l ≠ [] := by
        rintro rfl
        cases trail
        exact hb hm
      obtain ⟨z, ⟨u, cost⟩, s₂, hlast, hbz, hz, rfl, l', before⟩ := trail.exists_getLast? rounds
      obtain ⟨-, hcost⟩ := (Term.ends_step hK (before.madeOf hK made)).of_ok hz _ rfl
      dsimp only [Stage.after] at spent hcost
      obtain rfl : cost = 1 := by omega
      refine ⟨z.snapshot, ?_, rfl, rfl, z.store, s₂, hz⟩
      rw [Listing.behind, List.append_nil, hlast]

open Workspace in
/-- With budget left, the walk of `I x` ends with the final snapshot of `x`. -/
theorem getLast?_trace_selecting :
    Selecting.kinds.Closed Selecting.rules ∧ Selecting.argument.MadeOf Selecting.kinds ∧
      (1 : Int) ≤ 2 ∧
      Selecting.argument.run Selecting.rules (.number 2) [] false Selecting.workspace.store =
        .ok ⟨.var Selecting.asked, 1, true⟩ Selecting.workspace.store ∧
      ∃ shown s, Selecting.argument.trace Selecting.rules (some (.number 2)) .ok
        Selecting.workspace.store = .ok shown s ∧
          shown.items.getLast? = some ⟨.var Selecting.asked, 1, true⟩ := by
  have made : Selecting.argument.MadeOf Selecting.kinds := ⟨nofun, .inl rfl, trivial, trivial⟩
  have ran := Selecting.run_argument (m := 2) (by decide)
  obtain ⟨shown, s, htrace, -, hlast, -⟩ :=
    Term.getLast?_trace Selecting.closed_rules made (by decide) ran
  exact ⟨Selecting.closed_rules, made, by decide, ran, shown, s, htrace, hlast (by decide)⟩

open Workspace in
/-- With a budget of one, the run of `I x` ends with `x`, which is final, and the walk ends with the
snapshot of `I x`, which is not. -/
theorem run_ne_getLast?_trace :
    Selecting.argument.run Selecting.rules (.number 1) [] false Selecting.workspace.store =
        .ok ⟨.var Selecting.asked, 1, true⟩ Selecting.workspace.store ∧
      ∃ s, Selecting.argument.trace Selecting.rules (some (.number 1)) .ok
        Selecting.workspace.store = .ok ⟨[⟨Selecting.argument, 0, false⟩], none⟩ s := by
  refine ⟨Selecting.run_argument (by decide), ?_⟩
  let x : Stage := ⟨Selecting.argument, 0, Selecting.workspace.store⟩
  have quiet : Selecting.rules.quiet x.term = true := rfl
  have paid : (x.steps : Int) < 1 := by decide
  obtain ⟨left, traced⟩ := Stage.exists_trace_of_step quiet paid Selecting.step_argument
    Term.patience
  rw [Stage.trace_of_spent (x := x.after _ _) (by decide)] at traced
  exact ⟨_, congrArg (fun r : Listing Run × Store => EStateM.Result.ok r.1 r.2) traced⟩

end Combinatory
