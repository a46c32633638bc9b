import Combinatory.Numeral
import Combinatory.Proofs.Combination.Bracket
import Combinatory.Proofs.Indistinguishable
import Combinatory.Proofs.Normalization

/-!
# Counting with the successor

A term is evaluated to a number by running it on the successor and zero. The same run on two
variables `f` and `x` ends with `f` applied `k` times to `x` if the term is a numeral, but it is
another run: the successor of a numeral is the next numeral as soon as it is built, in places too
that are dropped later. The tally of a combination is what it is built as when the successor stands
for `f` and zero for `x`. Along the way to `f (f (… x))` a step of the tally is the tally of the
next step (`step_tally`), and this is all that can happen, except that a numeral gets too long on
the way. So a term that is a numeral is evaluated to its number by every budget that is large
enough, exactly if everything on the way can be tallied
(`Workspace.Reachable.toNumber_of_iterate`).
-/

namespace Combinatory

open Combination (Leads Rewrites)
open Engine (Computes)
open Relation (ReflTransGen)

namespace Skeleton

/-! ### Building -/

/-- What is applied to one argument becomes an application, or the next numeral. -/
theorem apply_one_cases {y z w : Skeleton} (h : y.apply [z] = .ok w) :
    (∃ g as, w = app g as) ∨
      ∃ n, y = native .successor ∧ z = numeral n ∧ n + 1 < Native.numeralBound ∧
        w = numeral (n + 1) := by
  unfold apply at h
  split at h
  · next heq => cases heq
  · cases h
    exact .inl ⟨_, _, rfl⟩
  · next heq =>
    cases heq
    split at h
    · next hn =>
      cases h
      exact .inr ⟨_, rfl, rfl, hn, rfl⟩
    · cases h
  · next heq =>
    cases heq
    cases h
    exact .inl ⟨_, _, rfl⟩

end Skeleton

namespace Combination

variable {f x : Variable} {t u g c d : Combination} {as bs : List Combination} {y z : Skeleton}
  {zs : List Skeleton}

/-! ### The tally -/

/-- What a combination is built as when the successor stands for `f` and zero for `x`. -/
def tally (f x : Variable) : Combination → Except Failure Skeleton
  | var v =>
    pure (if v = f then .native .successor else if v = x then .numeral 0 else .var (.free v))
  | native c => pure (.native c)
  | app g a => do (← tally f x g).apply [← tally f x a]

/-- What a function and an argument that can be tallied are built as. -/
theorem tally_app (hg : g.tally f x = .ok y) (ht : t.tally f x = .ok z) :
    (app g t).tally f x = y.apply [z] := by
  rw [tally, hg, ht]
  rfl

/-- Both parts of what can be tallied can be. -/
theorem exists_of_tally_app (h : (app g t).tally f x = .ok y) :
    ∃ z w, g.tally f x = .ok z ∧ t.tally f x = .ok w ∧ z.apply [w] = .ok y := by
  rw [tally] at h
  cases hg : g.tally f x with
  | error e =>
    rw [hg] at h
    cases h
  | ok z =>
    cases ht : t.tally f x with
    | error e =>
      rw [hg, ht] at h
      cases h
    | ok w =>
      rw [hg, ht] at h
      exact ⟨z, w, rfl, rfl, h⟩

/-- A combination cannot be tallied only because of a numeral that is too long. -/
theorem eq_of_tally_eq_error {e : Failure} (h : t.tally f x = .error e) : e = .numeralTooLong := by
  induction t with
  | var v => cases h
  | native c => cases h
  | app g a ihg iha =>
    rw [tally] at h
    cases hg : g.tally f x with
    | error e' =>
      rw [hg] at h
      cases h
      exact ihg hg
    | ok z =>
      cases ha : a.tally f x with
      | error e' =>
        rw [hg, ha] at h
        cases h
        exact iha ha
      | ok w =>
        rw [hg, ha] at h
        exact Skeleton.eq_of_apply_eq_error h

/-- What some combinations are built as. -/
abbrev Tallies (f x : Variable) : List Combination → List Skeleton → Prop :=
  List.Forall₂ fun a z => a.tally f x = .ok z

/-- A spine whose arguments can be tallied is its head applied to what they are built as. -/
theorem tally_apps (h : Tallies f x as zs) (t : Combination) :
    (t.apps as).tally f x = t.tally f x >>= (·.apply zs) := by
  induction h generalizing t with
  | nil =>
    have alone (y : Skeleton) : y.apply [] = pure y := by simp [Skeleton.apply]
    simp only [apps_nil, alone, bind_pure]
  | @cons a z as zs ha _ ih =>
    rw [apps_cons, ih, tally, ha, bind_assoc]
    congr 1
    funext y
    exact (Skeleton.apply_append y [z] zs).symm

/-- The head and all arguments of a spine that can be tallied can be. -/
theorem exists_of_tally_apps (h : (t.apps as).tally f x = .ok y) :
    ∃ w zs, t.tally f x = .ok w ∧ Tallies f x as zs ∧ w.apply zs = .ok y := by
  induction as generalizing t with
  | nil => exact ⟨y, [], h, .nil, rfl⟩
  | cons a as ih =>
    obtain ⟨w, zs, hw, hzs, hy⟩ := ih h
    obtain ⟨v, z, hv, hz, happly⟩ := exists_of_tally_app hw
    refine ⟨v, z :: zs, hv, .cons hz hzs, ?_⟩
    rw [← List.singleton_append, Skeleton.apply_append, happly]
    exact hy

/-- The successor stands for the one variable and zero for the other. -/
theorem tallies_counters (hfx : f ≠ x) :
    Tallies f x [var f, var x] [.native .successor, .numeral 0] := by
  simp [tally, hfx.symm, pure, Except.pure]

/-- Neither can a function be tallied when it is applied to what cannot. -/
theorem tally_app_of_error {e : Failure} (g : Combination) (ht : t.tally f x = .error e) :
    (app g t).tally f x = .error e := by
  rw [tally, ht]
  cases hg : g.tally f x with
  | ok y => rfl
  | error e' =>
    rw [eq_of_tally_eq_error ht, eq_of_tally_eq_error hg]
    rfl

/-! ### Rules -/

/-- Something that is applied again and again can be built as long as this can be tallied. -/
private theorem iterate_tally (hg : g.tally f x = .ok z) (n : Nat) (ht : t.tally f x = .ok y) :
    z.iterate y n = ((app g)^[n] t).tally f x := by
  induction n generalizing t y with
  | zero => exact ht.symm
  | succ n ih =>
    rw [Skeleton.iterate, Function.iterate_succ_apply]
    cases hz : z.apply [y] with
    | ok w => exact ih ((tally_app hg ht).trans hz)
    | error e =>
      have stays (m : Nat) : ((app g)^[m] (app g t)).tally f x = .error e := by
        induction m with
        | zero => exact (tally_app hg ht).trans hz
        | succ m ihm =>
          rw [Function.iterate_succ_apply']
          exact tally_app_of_error g ihm
      exact (stays n).symm

/-- Where the last argument is an application, this is built first. -/
private theorem tally_concat_app {b c : Combination} {w zb zc : Skeleton} (ht : t.tally f x = .ok w)
    (has : Tallies f x as zs) (hb : b.tally f x = .ok zb) (hc : c.tally f x = .ok zc) :
    (t.apps (as ++ [app b c])).tally f x = zb.apply [zc] >>= fun z => w.apply (zs ++ [z]) := by
  have last := tally_app hb hc
  cases hz : zb.apply [zc] with
  | ok z =>
    rw [tally_apps (List.rel_append has (.cons (last.trans hz) .nil)), ht]
    rfl
  | error e =>
    rw [apps_append, apps_cons, apps_nil, tally_app_of_error _ (last.trans hz)]
    rfl

/-- A rule makes of arguments that can be tallied what its template is built as. -/
theorem contract_tally {n : Native} {r : Template} (hn : n.isPlain = true)
    (hr : n.template = some r) (h : Tallies f x as zs) (hlen : as.length = n.arity)
    (ws : List Skeleton) :
    Skeleton.contract n (zs ++ ws) = do return some (← (r.fill as).tally f x) := by
  have spine {a : Combination} {w : Skeleton} {bs : List Combination} {vs : List Skeleton}
      (ha : a.tally f x = .ok w) (hbs : Tallies f x bs vs) :
      (a.apps bs).tally f x = w.apply vs := by
    rw [tally_apps hbs, ha]
    rfl
  cases n with
  | I =>
    cases hr
    obtain _ | ⟨ha, _ | _⟩ := h <;> cases hlen
    change _ = (do return some (← tally f x _))
    rw [Template.fill, nth, List.getD_cons_zero, ha]
    rfl
  | K =>
    cases hr
    obtain _ | ⟨ha, _ | ⟨hb, _ | _⟩⟩ := h <;> cases hlen
    rw [Template.fill, nth, List.getD_cons_zero, ha]
    rfl
  | S =>
    cases hr
    obtain _ | @⟨a, za, _, _, ha, _ | @⟨b, zb, _, _, hb, _ | @⟨c, zc, _, _, hc, _ | _⟩⟩⟩ := h <;>
      cases hlen
    change (do
      let w ← zb.apply [zc]
      return some (← za.apply [zc, w])) = do return some (← (a.apps ([c] ++ [app b c])).tally f x)
    rw [tally_concat_app ha (.cons hc .nil) hb hc, bind_assoc]
    rfl
  | B =>
    cases hr
    obtain _ | @⟨a, za, _, _, ha, _ | @⟨b, zb, _, _, hb, _ | @⟨c, zc, _, _, hc, _ | _⟩⟩⟩ := h <;>
      cases hlen
    change (do
      let w ← zb.apply [zc]
      return some (← za.apply [w])) = do return some (← (a.apps ([] ++ [app b c])).tally f x)
    rw [tally_concat_app ha .nil hb hc, bind_assoc]
    rfl
  | C =>
    cases hr
    obtain _ | @⟨a, za, _, _, ha, _ | @⟨b, zb, _, _, hb, _ | @⟨c, zc, _, _, hc, _ | _⟩⟩⟩ := h <;>
      cases hlen
    change (do return some (← za.apply [zc, zb])) =
      do return some (← (a.apps [c, b]).tally f x)
    rw [spine ha (.cons hc (.cons hb .nil))]
  | W =>
    cases hr
    obtain _ | @⟨a, za, _, _, ha, _ | @⟨b, zb, _, _, hb, _ | _⟩⟩ := h <;> cases hlen
    change (do return some (← za.apply [zb, zb])) =
      do return some (← (a.apps [b, b]).tally f x)
    rw [spine ha (.cons hb (.cons hb .nil))]
  | numeral k =>
    cases hr
    obtain _ | @⟨a, za, _, _, ha, _ | @⟨b, zb, _, _, hb, _ | _⟩⟩ := h <;> cases hlen
    change (do return some (← za.iterate zb k)) = _
    rw [iterate_tally ha k hb, Template.fill_power]
  | _ => cases hn

/-! ### Steps -/

/-- A template brings no combinators in. -/
private theorem uses_fill {ok : Native → Prop} (hI : ok .I) (h : ∀ a ∈ as, a.Uses ok)
    (r : Template) : (r.fill as).Uses ok := by
  induction r with
  | arg i =>
    by_cases hi : i < as.length
    · rw [Template.fill, nth, List.getD_eq_getElem _ _ hi]
      exact h _ (List.getElem_mem hi)
    · rw [Template.fill, nth, List.getD_eq_default _ _ (Nat.le_of_not_lt hi)]
      exact hI
  | app f a ihf iha => exact ⟨ihf, iha⟩

/-- Neither does a rewrite. -/
theorem Rewrites.uses {ok : Native → Prop} (hI : ok .I) (h : Rewrites t u) (ht : t.Uses ok) :
    u.Uses ok := by
  induction h with
  | fire _ _ => exact uses_fill hI (uses_apps.mp ht).2 _
  | left _ a ih => exact ⟨ih ht.1, ht.2⟩
  | right f _ ih => exact ⟨ht.1, ih ht.2⟩

/-- All combinators are plain. -/
abbrev IsPlain (t : Combination) : Prop := t.Uses fun n => n.isPlain = true

/-- The next step brings no combinators in. -/
theorem IsPlain.next (ht : t.IsPlain) (h : t.next = some d) : d.IsPlain :=
  (rewrites_of_next h).uses rfl ht

/-- A plain combinator is put in front of its arguments. -/
private theorem apply_plain {n : Native} (hn : n.isPlain = true) (hzs : zs ≠ []) :
    (Skeleton.native n).apply zs = .ok (.app (.native n) zs) := by
  obtain ⟨z, zs, rfl⟩ := List.exists_cons_of_ne_nil hzs
  refine Skeleton.apply_of_unmet nofun fun hsucc => ?_
  cases hsucc
  cases hn

/-- A plain combination whose head fires takes a step as it is tallied. -/
private theorem step_of_headStep (hc : c.IsPlain) (hy : c.tally f x = .ok y)
    (hd : c.headStep = some d) : y.step = do return some (← d.tally f x) := by
  obtain ⟨n, r, as, bs, hr, hlen, rfl, rfl⟩ := exists_of_headStep hd
  have hn : n.isPlain = true := (uses_apps.mp hc).1
  rw [apps_append] at hy
  obtain ⟨w, ws, hw, hws, hy⟩ := exists_of_tally_apps hy
  obtain ⟨_, zs, ⟨⟩, hzs, hw⟩ := exists_of_tally_apps hw
  have length : zs.length = n.arity := hzs.length_eq.symm.trans hlen
  have nonempty : zs ≠ [] := by
    rintro rfl
    exact Nat.ne_of_lt n.arity_pos length
  rw [apply_plain hn nonempty] at hw
  cases hw
  have whole : y = .app (.native n) (zs ++ ws) := by
    cases ws with
    | nil =>
      cases hy
      rw [List.append_nil]
    | cons v ws =>
      cases hy
      rfl
  rw [whole, Skeleton.step, Skeleton.reduce, contract_tally hn hr hzs hlen,
    List.drop_left' length, tally_apps hws]
  cases (r.fill as).tally f x with
  | error e => rfl
  | ok v => cases hv : v.apply ws <;> simp [hv, bind, Except.bind, pure, Except.pure]

/-- Where the head does not fire, it stays, with as many arguments. -/
theorem head_of_leads (hc : c.headStep = none) (h : Leads c d) :
    d.head = c.head ∧ d.args.length = c.args.length := by
  induction h using ReflTransGen.head_induction_on with
  | refl => exact ⟨rfl, rfl⟩
  | @head c c' hnext _ ih =>
    rw [Combination.next, hc, Option.none_or, ← apps_head_args c,
      innerStep_apps c.args_head] at hnext
    obtain ⟨as, has, rfl⟩ := Option.map_eq_some_iff.mp hnext
    have head : (c.head.apps as).head = c.head := by rw [head_apps, head_head]
    have length : (c.head.apps as).args.length = c.args.length := by
      rw [args_apps, args_head, List.nil_append, length_nextAmong has]
    obtain ⟨hhead, hlen⟩ := ih (headStep_eq_none head.symm length.symm hc)
    exact ⟨hhead.trans head, hlen.trans length⟩

/-- A variable applied to something waits for its argument. -/
theorem next_app_var (v : Variable) (t : Combination) :
    (app (var v) t).next = t.next.map (app (var v)) := rfl

/-- What a variable applied to something leads to is the variable applied to what this leads to. -/
private theorem leads_of_app_var {v : Variable} (h : Leads (app (var v) t) (app (var v) u)) :
    Leads t u := by
  generalize hc : app (var v) t = c at h
  induction h using ReflTransGen.head_induction_on generalizing t with
  | refl =>
    cases hc
    exact .refl
  | head hnext _ ih =>
    subst hc
    rw [next_app_var] at hnext
    obtain ⟨t', ht', rfl⟩ := Option.map_eq_some_iff.mp hnext
    exact (ih rfl).head ht'

/-- What counts as a numeral has no next step. -/
private theorem next_eq_none_of_tally (ht : t.IsPlain) {n : Nat}
    (h : t.tally f x = .ok (.numeral n)) : t.next = none := by
  induction t generalizing n with
  | var v => rfl
  | native c =>
    cases h
    rfl
  | app g a _ iha =>
    obtain ⟨z, w, hg, ha, happly⟩ := exists_of_tally_app h
    obtain ⟨_, _, ⟨⟩⟩ | ⟨m, rfl, rfl, -⟩ := Skeleton.apply_one_cases happly
    -- the successor stands for the one variable only
    have variable_of : ∃ v, g = var v := by
      cases g with
      | var v => exact ⟨v, rfl⟩
      | native c =>
        cases hg
        cases ht.1
      | app g' a' =>
        obtain ⟨_, _, -, -, happly'⟩ := exists_of_tally_app hg
        obtain ⟨_, _, ⟨⟩⟩ | ⟨_, _, _, _, ⟨⟩⟩ := Skeleton.apply_one_cases happly'
    obtain ⟨v, rfl⟩ := variable_of
    rw [next_app_var, iha ht.2 ha]
    rfl

/-- What is on the way to `f (f (… x))` and does not fire at its head is `x`, or `f` applied to
something that is on such a way. -/
private theorem shape_of_leads {k : Nat} (hc : c.headStep = none)
    (hl : Leads c ((app (var f))^[k] (var x))) :
    c = var x ∨ ∃ j t, k = j + 1 ∧ c = app (var f) t ∧ Leads t ((app (var f))^[j] (var x)) := by
  obtain ⟨head, length⟩ := head_of_leads hc hl
  cases k with
  | zero =>
    left
    rw [← apps_head_args c, ← head, List.eq_nil_of_length_eq_zero length.symm]
    rfl
  | succ j =>
    rw [Function.iterate_succ_apply'] at hl head length
    obtain ⟨t, ht⟩ : ∃ t, c.args = [t] := List.length_eq_one_iff.mp length.symm
    have whole : c = app (var f) t := by
      rw [← apps_head_args c, ← head, ht]
      rfl
    rw [whole] at hl
    exact .inr ⟨j, t, rfl, whole, leads_of_app_var hl⟩

/-- On the way to `f (f (… x))` a step of the tally is the tally of the next step. -/
theorem step_tally {k : Nat} (hc : c.IsPlain) (hl : Leads c ((app (var f))^[k] (var x)))
    (hy : c.tally f x = .ok y) (hd : c.next = some d) :
    y.step = do return some (← d.tally f x) := by
  induction k using Nat.strongRecOn generalizing c d y with
  | ind k ih =>
  cases hhead : c.headStep with
  | some d' =>
    rw [Combination.next, hhead] at hd
    cases hd
    exact step_of_headStep hc hy hhead
  | none =>
    obtain rfl | ⟨j, t, rfl, rfl, ht⟩ := shape_of_leads hhead hl
    · cases hd
    · rw [next_app_var] at hd
      obtain ⟨u, hu, rfl⟩ := Option.map_eq_some_iff.mp hd
      obtain ⟨_, w, ⟨⟩, hw, happly⟩ := exists_of_tally_app hy
      -- as the argument has a step, it is no numeral yet
      have unmet (n : Nat) : w ≠ .numeral n := by
        rintro rfl
        rw [next_eq_none_of_tally hc.2 hw] at hu
        cases hu
      have waits : (Skeleton.native .successor).apply [w] = .ok (.app (.native .successor) [w]) :=
        Skeleton.apply_of_unmet nofun fun _ => unmet
      rw [if_pos rfl, waits] at happly
      cases happly
      have inner := ih j (Nat.lt_succ_self j) hc.2 ht hw hu
      simp only [Skeleton.step, Skeleton.stepAmong, Skeleton.reduce, Skeleton.contract, inner,
        tally, if_pos]
      cases hv : u.tally f x with
      | error e => rfl
      | ok v => cases happly : (Skeleton.native .successor).apply [v] <;>
          simp [happly, bind, Except.bind, pure, Except.pure]

/-! ### The way to a numeral -/

/-- What has been counted to the end is a numeral, if it can be built. -/
theorem tally_iterate (hfx : f ≠ x) (k : Nat) : ((app (var f))^[k] (var x)).tally f x =
    if k < Native.numeralBound then .ok (.numeral k) else .error .numeralTooLong := by
  induction k with
  | zero =>
    rw [if_pos Native.numeralBound_pos, Function.iterate_zero_apply, tally, if_neg hfx.symm,
      if_pos rfl]
    rfl
  | succ k ih =>
    rw [Function.iterate_succ_apply', tally, tally, ih, if_pos rfl]
    by_cases hk : k < Native.numeralBound
    · rw [if_pos hk]
      change (Skeleton.native .successor).apply [.numeral k] = _
      unfold Skeleton.apply
      split
      · simp [Skeleton.apply, pure, Except.pure]
      · rfl
    · rw [if_neg hk, if_neg (by omega)]
      rfl

/-- It has no next step. -/
theorem next_iterate (f x : Variable) (k : Nat) :
    ((app (var f))^[k] (var x)).next = none := by
  induction k with
  | zero => rfl
  | succ k ih => rw [Function.iterate_succ_apply', next_app_var, ih, Option.map_none]

/-- Whether everything that a combination leads to can be tallied. -/
def Tallied (f x : Variable) (c : Combination) : Prop :=
  ∀ d, Leads c d → ∃ y, d.tally f x = .ok y

/-- A normal form leads nowhere else. -/
theorem tallied_of_next_eq_none (hy : c.tally f x = .ok y) (hn : c.next = none) :
    c.Tallied f x := by
  intro d hd
  rcases hd.cases_head with rfl | ⟨d', hd', -⟩
  · exact ⟨y, hy⟩
  · rw [hn] at hd'
    cases hd'

/-- Every way on from what can be tallied begins with the next step. -/
theorem tallied_iff_of_next (hy : c.tally f x = .ok y) (hd : c.next = some d) :
    c.Tallied f x ↔ d.Tallied f x := by
  constructor
  · exact fun h d' hd' => h d' (hd'.head hd)
  · intro h d' hd'
    rcases hd'.cases_head with rfl | ⟨c', hc', rest⟩
    · exact ⟨y, hy⟩
    · rw [hd] at hc'
      cases hc'
      exact h d' rest

/-- Where everything on the way can be tallied, a run of the tally that is long enough ends with the
numeral, and elsewhere it fails, because a numeral is too long. -/
theorem exists_runFrom_tally (hfx : f ≠ x) {k : Nat} (hc : c.IsPlain)
    (hl : Leads c ((app (var f))^[k] (var x))) :
    ∃ M, ∀ {y : Skeleton}, c.tally f x = .ok y → ∀ steps left, M ≤ left →
      (c.Tallied f x → ∃ m, y.runFrom steps left = .ok ⟨.numeral k, m, true⟩) ∧
        (¬ c.Tallied f x → y.runFrom steps left = .error .numeralTooLong) := by
  induction hl using ReflTransGen.head_induction_on with
  | refl =>
    refine ⟨0, fun {y} hy steps left _ => ⟨fun _ => ⟨steps, ?_⟩, fun not => absurd ?_ not⟩⟩
    · rw [tally_iterate hfx] at hy
      split at hy
      · cases hy
        cases left <;> rfl
      · cases hy
    · exact tallied_of_next_eq_none hy (next_iterate f x k)
  | @head c d hnext rest ih =>
    obtain ⟨M, hM⟩ := ih (hc.next hnext)
    refine ⟨M + 1, fun {y} hy steps left hle => ?_⟩
    obtain ⟨left, rfl⟩ : ∃ n, left = n + 1 := ⟨left - 1, by omega⟩
    have step := step_tally hc (rest.head hnext) hy hnext
    rw [tallied_iff_of_next hy hnext, Skeleton.runFrom, step]
    cases hz : d.tally f x with
    | ok z => exact hM hz (steps + 1) left (by omega)
    | error e =>
      refine ⟨fun h => ?_, fun _ => ?_⟩
      · obtain ⟨z, hz'⟩ := h d .refl
        rw [hz] at hz'
        cases hz'
      · rw [eq_of_tally_eq_error hz]
        rfl

end Combination

namespace Term

variable {R : Rules} {Γ : Scope} {e : Places} {y : Skeleton} {t : Term} {p : Twins}

/-! ### Evaluation to a number -/

/-- A run of a term at hand on others computes the run of what the skeletons are applied to. -/
theorem Held.computes_run_apply {args : List Term} (budget : Amount) (ht : Held Γ e y t p)
    (hargs : ∀ a ∈ args, Held Γ e (a.skeleton e) a p) :
    Computes (run R budget t args false) p.left (y.apply (skeletons e args) >>= Skeleton.run budget)
      fun c out s' => ∃ p', p ≤ p' ∧ p'.left = s' ∧ EndsAs Γ e c out p' := by
  rw [run_eq_apply_bind]
  apply (ht.computes_apply hargs).bind
  rintro z u _ - ⟨p₁, hp₁, rfl, hu⟩
  apply (computes_run budget hu).imp
  rintro c out _ - ⟨p₂, hp₂, rfl, hend⟩
  exact ⟨p₂, Twins.le_trans hp₁ hp₂, rfl, hend⟩

/-- The combinators that a term is evaluated on are at hand. -/
private theorem Held.counters (ht : Held Γ e y t p) :
    ∀ a ∈ [native .successor, numeral 0], Held Γ e (a.skeleton e) a p := by
  have pure_native {c : Native} (hc : c.isPure = true) : Held Γ e (.native c) (native c) p :=
    ⟨ht.scope, ⟨regular_native hc, rfl⟩, hc, hc⟩
  intro a ha
  rcases List.mem_cons.mp ha with rfl | ha
  · exact pure_native rfl
  · rw [List.mem_singleton.mp ha]
    exact pure_native rfl

/-- A term is evaluated to the number that its run ends with, where this is final. -/
theorem Held.toNumber_of_ok {k m : Nat} {maxSteps : Option Amount} (ht : Held Γ e y t p)
    (hrun : (y.apply [.native .successor, .numeral 0] >>=
      Skeleton.run (maxSteps.getD Numeral.defaultSteps)) = .ok ⟨.numeral k, m, true⟩) :
    ∃ s, t.toNumber R maxSteps p.left = .ok k s := by
  have computed := ht.computes_run_apply (R := R) (maxSteps.getD Numeral.defaultSteps) ht.counters
  rw [skeletons, skeletons, skeletons, skeleton, skeleton, hrun] at computed
  obtain ⟨out, s, hout, -, p', -, -, hend⟩ := computed
  have literal : out.term = numeral k :=
    hend.term.shaped.plain.skeleton_eq_native hend.term.shaped.skeleton
  have strict : run R (maxSteps.getD Numeral.defaultSteps) t [native .successor, numeral 0] true
      p.left = .ok out s := by
    rw [run_strict, Engine.bind_of_ok hout, hend.final]
    rfl
  refine ⟨s, Engine.bind_ok_iff.mpr ⟨out, s, ?_, ?_⟩⟩
  · rw [strict]
  · rw [literal]
    rfl

/-- A term whose run fails, though not for its budget, is evaluated to nothing for that cause. -/
theorem Held.toNumber_of_error {e' : Failure} {maxSteps : Option Amount} (ht : Held Γ e y t p)
    (he : e'.isBudget = false)
    (hrun : (y.apply [.native .successor, .numeral 0] >>=
      Skeleton.run (maxSteps.getD Numeral.defaultSteps)) = .error e') :
    ∃ s, t.toNumber R maxSteps p.left = .error e' s := by
  have computed := ht.computes_run_apply (R := R) (maxSteps.getD Numeral.defaultSteps) ht.counters
  rw [skeletons, skeletons, skeletons, skeleton, skeleton, hrun] at computed
  obtain ⟨s, hs⟩ := computed
  have strict : run R (maxSteps.getD Numeral.defaultSteps) t [native .successor, numeral 0] true
      p.left = .error e' s := by
    rw [run_strict, Engine.bind_of_error hs]
  refine ⟨s, Engine.bind_of_error ?_⟩
  rw [strict]
  simp [he]

/-- A term at hand that stands for a combination which leads to `f (f (… x))` on two variables is
evaluated to the number, by every budget from some budget on that does not depend on anything else,
where everything on the way can be tallied; elsewhere a numeral gets too long. -/
theorem exists_budget_toNumber {f x : Variable} (hfx : f ≠ x) {c : Combination} (hc : c.IsPlain)
    {k : Nat}
    (hl : Leads (c.apps [.var f, .var x]) ((Combination.app (.var f))^[k] (.var x))) :
    ∃ N : Nat, ∀ {Γ : Scope} {y : Skeleton} {t : Term} {p : Twins}, Held Γ .free y t p →
      c.tally f x = .ok y → ∀ (R : Rules) (maxSteps : Option Amount) (b : Int),
        (maxSteps.getD Numeral.defaultSteps).bound? = some b → N ≤ b →
        ((c.apps [.var f, .var x]).Tallied f x → ∃ s, t.toNumber R maxSteps p.left = .ok k s) ∧
          (¬ (c.apps [.var f, .var x]).Tallied f x →
            ∃ s, t.toNumber R maxSteps p.left = .error .numeralTooLong s) := by
  have plain : (c.apps [.var f, .var x]).IsPlain :=
    Combination.uses_apps.mpr ⟨hc, by simp [Combination.Uses]⟩
  obtain ⟨N, hN⟩ := Combination.exists_runFrom_tally hfx plain hl
  refine ⟨N, fun {Γ y t p} ht hy R maxSteps b hb hle => ?_⟩
  have start : (c.apps [.var f, .var x]).tally f x =
      y.apply [.native .successor, .numeral 0] := by
    rw [Combination.tally_apps (Combination.tallies_counters hfx), hy]
    rfl
  cases hz : y.apply [.native .successor, .numeral 0] with
  | error e =>
    obtain rfl := Skeleton.eq_of_apply_eq_error hz
    constructor
    · intro tallied
      obtain ⟨z, hz'⟩ := tallied _ .refl
      rw [start, hz] at hz'
      cases hz'
    · intro _
      exact ht.toNumber_of_error rfl (by rw [hz]; rfl)
  | ok z =>
    obtain ⟨found, refused⟩ := hN (start.trans hz) 0 b.toNat (by omega)
    have running : (y.apply [.native .successor, .numeral 0] >>=
        Skeleton.run (maxSteps.getD Numeral.defaultSteps)) = z.runFrom 0 b.toNat := by
      rw [hz]
      change Skeleton.run _ z = _
      rw [Skeleton.run, hb]
    constructor
    · intro tallied
      obtain ⟨m, hm⟩ := found tallied
      exact ht.toNumber_of_ok (running.trans hm)
    · intro untallied
      exact ht.toNumber_of_error rfl (running.trans (refused untallied))

/-! ### Combinations -/

mutual

/-- The combinators of a combination are plain. -/
theorem IsCombination.isPlain : ∀ {t : Term}, t.IsCombination → t.combination.IsPlain
  | var _, _ => trivial
  | native _, ht => ht
  | app _ _ _, ⟨hh, _, has⟩ =>
    Combination.uses_apps.mpr ⟨hh.isCombination.isPlain, AreCombinations.isPlain has⟩
  | foreign _, ht => ht.elim
  | named _ _, ht => ht.elim
  | lam _ _, ht => ht.elim

theorem AreCombinations.isPlain : ∀ {ts : List Term}, AreCombinations ts →
    ∀ c ∈ combinations ts, c.IsPlain
  | [], _ => by simp [combinations]
  | t :: ts, ⟨ht, hts⟩ =>
    List.forall_mem_cons.mpr ⟨IsCombination.isPlain ht, AreCombinations.isPlain hts⟩

end

mutual

/-- A combination in which the two variables do not occur is tallied as it is. -/
theorem IsCombination.tally_eq_skeleton {f x : Variable} : ∀ {t : Term}, t.IsCombination →
    t.occurs f = false → t.occurs x = false →
      t.combination.tally f x = .ok (t.skeleton .free)
  | var v, _, hf, hx => by
    rw [occurs, decide_eq_false_iff_not] at hf hx
    rw [combination, Combination.tally, if_neg hf, if_neg hx]
    rfl
  | native _, _, _, _ => rfl
  | app n h as, ⟨hh, hne, has⟩, hf, hx => by
    rw [occurs, Bool.or_eq_false_iff] at hf hx
    rw [combination, Combination.tally_apps (AreCombinations.tallies has hf.2 hx.2),
      hh.isCombination.tally_eq_skeleton hf.1 hx.1]
    obtain ⟨a, as, rfl⟩ := List.exists_cons_of_ne_nil hne
    cases h with
    | var v => rfl
    | native c =>
      refine Skeleton.apply_of_unmet nofun fun hsucc => ?_
      cases hsucc
      cases hh
    | _ => exact hh.elim
  | foreign _, ht, _, _ => ht.elim
  | named _ _, ht, _, _ => ht.elim
  | lam _ _, ht, _, _ => ht.elim

theorem AreCombinations.tallies {f x : Variable} : ∀ {ts : List Term}, AreCombinations ts →
    occursAny f ts = false → occursAny x ts = false →
      Combination.Tallies f x (combinations ts) (skeletons .free ts)
  | [], _, _, _ => .nil
  | _ :: _, ⟨ht, hts⟩, hf, hx => by
    rw [occursAny, Bool.or_eq_false_iff] at hf hx
    exact .cons (IsCombination.tally_eq_skeleton ht hf.1 hx.1)
      (AreCombinations.tallies hts hf.2 hx.2)

end

end Term

namespace Workspace

section

variable {w w₁ : Workspace} {ts : List Term} {t : Term} {f x : Variable}

private theorem forms_map_var (vs : List Variable) :
    List.Forall₂ Term.Forms (vs.map Term.var) (vs.map Combination.var) :=
  List.forall₂_map_left_iff.mpr
    (List.forall₂_map_right_iff.mpr (List.forall₂_same.mpr fun _ _ => ⟨trivial, rfl⟩))

private theorem recorded_map_var {ok : Native → Prop} {H : Heap} (vs : List Variable) :
    Term.RecordedAll ok H (vs.map Term.var) := by
  refine Term.recordedAll_iff.mpr fun a ha => ?_
  obtain ⟨v, -, rfl⟩ := List.mem_map.mp ha
  trivial

/-- A final run of a combination on variables ends with a normal form that the leftmost strategy
leads to. -/
theorem Reachable.leads_of_run_var (h : w.Reachable) (ht : t ∈ w.terms) (ct : t.IsCombination)
    {R : Rules} {l : List Variable} {budget : Amount} {strict : Bool} {out : Run} {s : Store}
    (hrun : t.run R budget (l.map .var) strict w.store = .ok out s) (hfinal : out.final = true) :
    ∃ n, Leads (t.combination.apps (l.map .var)) n ∧ n.next = none ∧ out.term.Forms n := by
  obtain ⟨p, hp⟩ := h.exists_twins
  obtain ⟨start, s₁, b, hstart, -, hfrom, -⟩ := Term.run_ok_iff.mp hrun
  rw [← hp.left] at hstart
  have stands := hp.stands ht ct
  obtain ⟨p₁, -, rfl, hrec⟩ :=
    (Term.records_apply (.of_pure R p) stands.recorded (recorded_map_var l)).exists_of_ok hstart
  have forms := (stands.forms.apply R (forms_map_var l) p.left).of_ok (.left p) hstart
  exact Term.leads_of_runFrom ⟨hrec, forms.2.2⟩ hfrom hfinal

/-- Where the strategy leads to a normal form from a combination on variables, some budget is enough
for a final run. -/
theorem Reachable.exists_run_var (h : w.Reachable) (ht : t ∈ w.terms) (ct : t.IsCombination)
    (R : Rules) {l : List Variable} {n : Combination}
    (hl : Leads (t.combination.apps (l.map .var)) n) (hn : n.next = none) :
    ∃ (M : Nat) (out : Run) (s : Store),
      t.run R (.number M) (l.map .var) false w.store = .ok out s ∧ out.final = true ∧
        out.term.Forms n := by
  obtain ⟨p, hp⟩ := h.exists_twins
  have stands := hp.stands ht ct
  obtain ⟨start, s₁, hstart, -, -, forms⟩ :=
    stands.forms.apply R (forms_map_var l) p.left (.left p)
  obtain ⟨p₁, -, rfl, hrec⟩ :=
    (Term.records_apply (.of_pure R p) stands.recorded (recorded_map_var l)).exists_of_ok hstart
  obtain ⟨M, hM⟩ := Term.runFrom_of_leads hl hn
  obtain ⟨out, p₂, -, hfrom, hend⟩ := hM ⟨hrec, forms⟩ R M 0 Term.patience (by omega)
  rw [hp.left] at hstart
  exact ⟨M, out, p₂.left, Term.run_ok_iff.mpr ⟨start, _, _, hstart, rfl, hfrom, nofun⟩,
    hend.final, hend.forms⟩

/-- A combination that stands for a numeral, as its run on two new variables shows, is evaluated to
this number by every budget from some budget on, whatever a caller does before, where everything on
the way of that run can be tallied. Where something cannot, its evaluation fails, since a numeral
gets too long that may be dropped later; it is never found not to be a numeral, nor does it run out
of its budget. -/
theorem Reachable.toNumber_of_iterate (h : w.Reachable) (hts : Builds w.store ts) (ht : t ∈ ts)
    (hmem : t ∈ w.terms) (hcomb : t.IsCombination) (h₁ : ReflTransGen Move w w₁) (hfx : f ≠ x)
    (hf : t.occurs f = false) (hx : t.occurs x = false) {R₁ : Rules} {budget : Amount}
    {strict : Bool} {out : Run} {s : Store} {k : Nat}
    (hrun : t.run R₁ budget [.var f, .var x] strict w₁.store = .ok out s)
    (hfinal : out.final = true)
    (hout : out.term.Forms ((Combination.app (.var f))^[k] (.var x))) :
    ∃ N : Nat, ∀ w₂, ReflTransGen Move w w₂ → ∀ (R : Rules) (maxSteps : Option Amount) (b : Int),
      (maxSteps.getD Numeral.defaultSteps).bound? = some b → N ≤ b →
      ((t.combination.apps [.var f, .var x]).Tallied f x →
        ∃ s₂, t.toNumber R maxSteps w₂.store = .ok k s₂) ∧
      (¬ (t.combination.apps [.var f, .var x]).Tallied f x →
        ∃ s₂, t.toNumber R maxSteps w₂.store = .error .numeralTooLong s₂) := by
  obtain ⟨p, hp⟩ := h.exists_twins
  have there := (hp.later h₁).terms t hmem
  obtain ⟨n, hleads, -, hn⟩ :=
    Reachable.leads_of_run_var (h.trans h₁) there hcomb (l := [f, x]) hrun hfinal
  obtain rfl := hn.combination.symm.trans hout.combination
  obtain ⟨N, hN⟩ := Term.exists_budget_toNumber hfx hcomb.isPlain hleads
  refine ⟨N, fun w₂ h₂ R maxSteps b hb hle => ?_⟩
  obtain ⟨p₂, left, held⟩ := hp.held hts ht hmem hcomb.pending_eq_zero h₂
  rw [← left]
  exact hN held (hcomb.tally_eq_skeleton hf hx) R maxSteps b hb hle

end

namespace Tallying

/-- A variable for what is repeated. -/
def f : Variable := ⟨"f", 1⟩

/-- A variable for what it is repeated on. -/
def x : Variable := ⟨"x", 2⟩

/-- The longest numeral. -/
def longest : Term := .numeral (Native.numeralBound - 1)

/-- The application `S B 1`, the successor of one. -/
def two : Term := .app 0 (.native .S) [.native .B, .numeral 1]

/-- The application `K 1`. -/
def one : Term := .app 1 (.native .K) [.numeral 1]

/-- The application `K (K 1)`. -/
def ones : Term := .app 2 (.native .K) [one]

/-- The application `S (K (K 1))`. -/
def drop : Term := .app 3 (.native .S) [ones]

/-- The application `C (S (K (K 1))) N` to the longest numeral. -/
def passing : Term := .app 4 (.native .C) [drop, longest]

/-- The application `S (C (S (K (K 1))) N) I`. It applies `f` to the longest numeral, and drops what
it gets. -/
def dropping : Term := .app 5 (.native .S) [passing, .native .I]

/-- What is at hand after these were built. -/
def workspace : Workspace :=
  ⟨⟨3, 6, ∅⟩, [x, f], [dropping, passing, drop, ones, one, two, longest, .numeral 1, .native .C,
    .native .B, .native .S, .native .K, .native .I, .var x, .var f]⟩

theorem reachable : workspace.Reachable := by
  have minted : Reachable ⟨⟨3, 0, ∅⟩, [x, f], [.var x, .var f]⟩ :=
    ReflTransGen.tail (.single (.mint (v := f) rfl)) (.mint (v := x) rfl)
  have named : Reachable ⟨⟨3, 0, ∅⟩, [x, f], [longest, .numeral 1, .native .C, .native .B,
      .native .S, .native .K, .native .I, .var x, .var f]⟩ :=
    ((((((minted.tail (.native .I)).tail (.native .K)).tail (.native .S)).tail
      (.native .B)).tail (.native .C)).tail (.native (.numeral 1))).tail (.native _)
  have hR (l : List Term) : Rules.undeclared.SteadyOver l := Rules.steadyOver_undeclared l
  have first := named.apply (f := .native .S) (l := [.native .B, .numeral 1]) (t := two) (hR _)
    (by simp) rfl
  have second := first.apply (f := .native .K) (l := [.numeral 1]) (t := one) (hR _) (by simp) rfl
  have third := second.apply (f := .native .K) (l := [one]) (t := ones) (hR _) (by simp) rfl
  have fourth := third.apply (f := .native .S) (l := [ones]) (t := drop) (hR _) (by simp) rfl
  have fifth := fourth.apply (f := .native .C) (l := [drop, longest]) (t := passing) (hR _)
    (by simp) rfl
  exact fifth.apply (f := .native .S) (l := [passing, .native .I]) (hR _) (by simp) rfl

theorem builds : Builds workspace.store workspace.terms := by
  have minted : Builds ⟨3, 0, ∅⟩ [.var x, .var f] :=
    .mint (v := x) (.mint (v := f) .start rfl) rfl
  have named : Builds ⟨3, 0, ∅⟩ [longest, .numeral 1, .native .C, .native .B, .native .S,
      .native .K, .native .I, .var x, .var f] :=
    .native (.native (.native (.native (.native (.native (.native minted rfl) rfl) rfl) rfl) rfl)
      rfl) rfl
  have first : Builds ⟨3, 1, ∅⟩ (two :: _) :=
    named.applied (R := .undeclared) (f := .native .S) (l := [.native .B, .numeral 1]) (by simp) rfl
  have second : Builds ⟨3, 2, ∅⟩ (one :: _) :=
    first.applied (R := .undeclared) (f := .native .K) (l := [.numeral 1]) (by simp) rfl
  have third : Builds ⟨3, 3, ∅⟩ (ones :: _) :=
    second.applied (R := .undeclared) (f := .native .K) (l := [one]) (by simp) rfl
  have fourth : Builds ⟨3, 4, ∅⟩ (drop :: _) :=
    third.applied (R := .undeclared) (f := .native .S) (l := [ones]) (by simp) rfl
  have fifth : Builds ⟨3, 5, ∅⟩ (passing :: _) :=
    fourth.applied (R := .undeclared) (f := .native .C) (l := [drop, longest]) (by simp) rfl
  exact fifth.applied (R := .undeclared) (f := .native .S) (l := [passing, .native .I]) (by simp)
    rfl

/-- What the successor of one on `f` and `x` is after two steps. -/
def stepped : Combination :=
  .app (.var f) ((Combination.native (.numeral 1)).apps [.var f, .var x])

/-- Three steps lead from the successor of one on `f` and `x` to `f (f x)`. -/
theorem leads_two : Leads (two.combination.apps [.var f, .var x])
    ((Combination.app (.var f))^[2] (.var x)) := by
  have last : Leads stepped ((Combination.app (.var f))^[2] (.var x)) := .single rfl
  exact .head (b := (Combination.native .B).apps
    [.var f, .app (.native (.numeral 1)) (.var f), .var x]) rfl (.head rfl last)

/-- All that it leads to can be tallied. -/
theorem tallied_two : (two.combination.apps [.var f, .var x]).Tallied f x := by
  have short : 2 < Native.numeralBound := by decide +kernel
  have last : ((Combination.app (.var f))^[2] (.var x)).Tallied f x :=
    Combination.tallied_of_next_eq_none
      ((Combination.tally_iterate (by decide) 2).trans (if_pos short)) rfl
  have third : stepped.Tallied f x :=
    (Combination.tallied_iff_of_next rfl rfl).mpr last
  have second : ((Combination.native .B).apps
      [.var f, .app (.native (.numeral 1)) (.var f), .var x]).Tallied f x :=
    (Combination.tallied_iff_of_next rfl rfl).mpr third
  exact (Combination.tallied_iff_of_next rfl rfl).mpr second

end Tallying

/-- The successor of one is run to `f (f x)`, and evaluated to two. -/
theorem toNumber_two :
    Tallying.workspace.Reachable ∧
      Builds Tallying.workspace.store Tallying.workspace.terms ∧
      ∃ (M N : Nat) (out : Run) (s s₂ : Store),
        Tallying.two.run Rules.undeclared (.number M) [.var Tallying.f, .var Tallying.x] false
          Tallying.workspace.store = .ok out s ∧
        out.final = true ∧
        out.term.Forms ((Combination.app (.var Tallying.f))^[2] (.var Tallying.x)) ∧
        Tallying.two.toNumber Rules.undeclared (some (.number N)) Tallying.workspace.store =
          .ok 2 s₂ := by
  have mem : Tallying.two ∈ Tallying.workspace.terms := by simp [Tallying.workspace]
  have comb : Tallying.two.IsCombination := ⟨rfl, nofun, rfl, rfl, trivial⟩
  obtain ⟨M, out, s, hrun, hfinal, hout⟩ := Tallying.reachable.exists_run_var mem comb
    Rules.undeclared (l := [Tallying.f, Tallying.x]) Tallying.leads_two rfl
  obtain ⟨N, hN⟩ := Tallying.reachable.toNumber_of_iterate Tallying.builds mem mem comb .refl
    (by decide) rfl rfl hrun hfinal hout
  obtain ⟨s₂, found⟩ := (hN Tallying.workspace .refl Rules.undeclared (some (.number N)) N rfl
    (Int.le_refl _)).1 Tallying.tallied_two
  exact ⟨Tallying.reachable, Tallying.builds, M, N, out, s, s₂, hrun, hfinal, hout, found⟩

namespace Tallying

/-- Three steps lead from `S (C (S (K (K 1))) N) I f x` to a place where `f` is applied to `N`. -/
def dropped : Combination :=
  (Combination.native .K).apps [one.combination, longest.combination,
    .app (.var f) longest.combination, .app (.native .I) (.var f), .var x]

theorem leads_dropped : Leads (dropping.combination.apps [.var f, .var x]) dropped := by
  have second : Leads ((Combination.native .S).apps [ones.combination, .var f,
      longest.combination, .app (.native .I) (.var f), .var x]) dropped := .single rfl
  exact .head (b := (Combination.native .C).apps [drop.combination, longest.combination, .var f,
    .app (.native .I) (.var f), .var x]) rfl (.head rfl second)

/-- Four more lead to `f x`. -/
theorem leads_dropping : Leads (dropping.combination.apps [.var f, .var x])
    ((Combination.app (.var f))^[1] (.var x)) := by
  have last : Leads ((Combination.native .I).apps [.var f, .var x])
      ((Combination.app (.var f))^[1] (.var x)) := .single rfl
  have second : Leads ((Combination.native .K).apps [.native (.numeral 1),
      .app (.var f) longest.combination, .app (.native .I) (.var f), .var x])
      ((Combination.app (.var f))^[1] (.var x)) :=
    .head (b := (Combination.native (.numeral 1)).apps [.app (.native .I) (.var f), .var x]) rfl
      (.head rfl last)
  exact leads_dropped.trans (.head rfl second)

/-- The successor of the longest numeral cannot be built. -/
theorem not_tallied_dropping : ¬ (dropping.combination.apps [.var f, .var x]).Tallied f x := by
  intro tallied
  obtain ⟨y, hy⟩ := tallied _ leads_dropped
  obtain ⟨_, _, _, args, _⟩ := Combination.exists_of_tally_apps hy
  obtain _ | ⟨_, _ | ⟨_, _ | ⟨hsucc, _⟩⟩⟩ := args
  obtain ⟨_, _, ⟨⟩, ⟨⟩, happly⟩ := Combination.exists_of_tally_app hsucc
  have long : ¬ Native.numeralBound - 1 + 1 < Native.numeralBound := by omega
  rw [if_pos rfl, Skeleton.apply, if_neg long] at happly
  cases happly

end Tallying

/-- An application to the longest numeral that is dropped makes no difference to a run on `f` and
`x`, which ends with `f x`, but evaluating the same term fails with every budget that is large
enough: the successor of the longest numeral is built before it is dropped. -/
theorem toNumber_dropping :
    (∃ (M : Nat) (out : Run) (s : Store),
      Tallying.dropping.run Rules.undeclared (.number M) [.var Tallying.f, .var Tallying.x] false
        Tallying.workspace.store = .ok out s ∧
      out.final = true ∧
      out.term.Forms ((Combination.app (.var Tallying.f))^[1] (.var Tallying.x))) ∧
    ∃ N : Nat, ∀ b : Int, N ≤ b → ∃ s,
      Tallying.dropping.toNumber Rules.undeclared (some (.number b)) Tallying.workspace.store =
        .error .numeralTooLong s := by
  have mem : Tallying.dropping ∈ Tallying.workspace.terms := List.mem_cons_self
  have comb : Tallying.dropping.IsCombination := by
    simp [Tallying.dropping, Tallying.passing, Tallying.drop, Tallying.ones, Tallying.one,
      Tallying.longest, Term.IsCombination, Term.AreCombinations, Term.IsAtom, Native.isPlain]
  refine ⟨Tallying.reachable.exists_run_var mem comb Rules.undeclared
    (l := [Tallying.f, Tallying.x]) Tallying.leads_dropping rfl, ?_⟩
  obtain ⟨p, hp⟩ := Tallying.reachable.exists_twins
  obtain ⟨N, hN⟩ := Term.exists_budget_toNumber (f := Tallying.f) (x := Tallying.x) (by decide)
    comb.isPlain Tallying.leads_dropping
  have held := hp.holds Tallying.builds mem mem comb.pending_eq_zero
  have tally := comb.tally_eq_skeleton (f := Tallying.f) (x := Tallying.x) rfl rfl
  refine ⟨N, fun b hb => ?_⟩
  rw [← hp.left]
  exact (hN held tally Rules.undeclared (some (.number b)) b rfl hb).2
    Tallying.not_tallied_dropping

end Workspace

end Combinatory
