import Combinatory.Proofs.Guarantee
import Combinatory.Proofs.Settled.Declarations
import Mathlib.Logic.Relation

/-!
# Workspaces

A workspace is what a caller has at hand: the store of the engine, the variables that were asked
for, and terms. From there the caller builds, names and takes apart terms, and steps, runs, walks
and searches for canonical forms, in any order; a call that fails keeps what it has changed. The
rules may change from call to call, as long as what combinators do is a function of their arguments.
In every workspace that is reached this way the table of settled applications is sound
(`Reachable.exists_twins`).
-/

namespace Combinatory

open Relation (ReflTransGen)

/-- What a caller has at hand. -/
structure Workspace where
  store : Store
  /-- The variables that were asked for. -/
  free : List Variable
  terms : List Term

/-- A call of the library on terms. -/
inductive Call where
  | apply (head : Term) (args : List Term)
  | application (head : Term) (args : List Term)
  | lambda (listed : Bool) (binders : List Term) (body : Term)
  | define (budget : Budget) (name : Literal) (definition : Term) (terminal : Option Literal)
      (canonize : Bool) (note : Literal)
  | describe (name : Literal) (definition : Term) (arity : Amount) (proper terminal note : Literal)
  | subst (t : Term) (v : Variable) (value : Term)
  | step (t : Term)
  | run (budget : Amount) (t : Term) (args : List Term) (strict : Bool)
  | walk (budget : Option Amount) (limit : Nat) (t : Term)
  | canonicalize (budget : Budget) (t : Term) (strict : Bool)

namespace Call

/-- The terms that a call is about. -/
def inputs : Call → List Term
  | apply head args => head :: args
  | application head args => head :: args
  | lambda _ binders body => body :: binders
  | define _ _ t _ _ _ => [t]
  | describe _ t _ _ _ _ => [t]
  | subst t _ value => [t, value]
  | step t => [t]
  | run _ t args _ => t :: args
  | walk _ _ t => [t]
  | canonicalize _ t _ => [t]

/-- The terms that a call gives. -/
def perform (R : Rules) : Call → Engine (List Term)
  | apply head args => do return [← head.apply R args]
  | application head args => do return [← head.application args]
  | lambda listed binders body => do return [← Term.lambdaOver R listed binders body]
  | define budget name t terminal canonize note => do
    let n ← Naming.ofTerm R budget name t terminal canonize note
    return n.term :: n.canonical.toList
  | describe name t arity proper terminal note => do
    return [(← Naming.new name t arity proper terminal none note).term]
  | subst t v value => do return (← t.subst R v value).toList
  | step t => do return (← t.step R).toList.map (·.term)
  | run budget t args strict => do return [(← t.run R budget args strict).term]
  | walk budget limit t => do return (← t.walk R budget limit .ok).items.map (·.term)
  | canonicalize budget t strict => do
    return (← t.canonicalize R budget strict).canonical.toList

end Call

/-- The immediate parts of a term. -/
def Term.parts : Term → List Term
  | .named _ d => [d]
  | .lam v b => [.var v, b]
  | .app _ h as => h :: as
  | _ => []

/-- Rules are functions of their arguments wherever the terms at hand are known. -/
def Rules.SteadyOver (R : Rules) (ts : List Term) : Prop :=
  ∀ p : Twins, Term.KnownAll p.heap ts → R.Steady (fun _ => True) p

namespace Workspace

/-- What a caller may do next. -/
inductive Move : Workspace → Workspace → Prop where
  | mint {w : Workspace} {name : String} {v : Variable} {s : Store}
      (h : Engine.freshVariable name w.store = .ok v s) :
      Move w ⟨s, v :: w.free, .var v :: w.terms⟩
  /-- User combinators and literals have identities too. -/
  | identify {w : Workspace} {n : Nat} {s : Store} (h : Engine.freshNode w.store = .ok n s) :
      Move w { w with store := s }
  | native {w : Workspace} (c : Native) : Move w { w with terms := .native c :: w.terms }
  | foreign {w : Workspace} (x : Foreign) : Move w { w with terms := .foreign x :: w.terms }
  | part {w : Workspace} {t u : Term} (ht : t ∈ w.terms) (hu : u ∈ t.parts) :
      Move w { w with terms := u :: w.terms }
  | call {w : Workspace} {R : Rules} {c : Call} {ts : List Term} {s : Store}
      (hR : R.SteadyOver w.terms) (hc : ∀ t ∈ c.inputs, t ∈ w.terms)
      (h : c.perform R w.store = .ok ts s) : Move w { w with store := s, terms := ts ++ w.terms }
  | fail {w : Workspace} {R : Rules} {c : Call} {e : Failure} {s : Store}
      (hR : R.SteadyOver w.terms) (hc : ∀ t ∈ c.inputs, t ∈ w.terms)
      (h : c.perform R w.store = .error e s) : Move w { w with store := s }

/-- Workspaces that a caller may have, beginning with nothing. -/
def Reachable : Workspace → Prop := ReflTransGen Move ⟨{}, [], []⟩

end Workspace

/-! ### Calls -/

variable {p p' : Twins} {R : Rules}

/-- A call does not depend on the table, and gives known terms. -/
private theorem Call.records_perform (hR : R.Steady (fun _ => True) p) (c : Call)
    (hc : Term.KnownAll p.heap c.inputs) :
    Alike (c.perform R) (c.perform R) p fun ts p' => Term.KnownAll p'.heap ts := by
  have single {x : Engine Term} (hx : Records (fun _ => True) x p) :
      Alike (do return [← x]) (do return [← x]) p fun ts p' => Term.KnownAll p'.heap ts := by
    apply hx.bind
    intro t p₁ _ ht
    exact .pure ⟨ht, trivial⟩
  have any {o : Option Term} {p' : Twins} (ho : ∀ u, o = some u → u.Known p'.heap) :
      Term.KnownAll p'.heap o.toList :=
    Term.recordedAll_iff.mpr fun u hu => ho u (Option.mem_toList.mp hu)
  cases c with
  | apply head args => exact single (Term.records_apply hR hc.1 hc.2)
  | application head args => exact single (Term.records_application hc.1 hc.2)
  | lambda listed binders body => exact single (Term.records_lambdaOver hR listed binders hc.1)
  | define budget name t terminal canonize note =>
    apply (Naming.records_ofTerm hR budget name terminal canonize note hc.1).bind
    intro n p₁ _ hn
    exact .pure ⟨hn.definition, any hn.canonical⟩
  | describe name t arity proper terminal note =>
    have unsearched : ∀ u, (none : Option Term) = some u → u.Known p.heap := nofun
    apply (Naming.records_new name arity proper terminal note hc.1 unsearched).bind
    intro n p₁ _ hn
    exact .pure ⟨hn.definition, trivial⟩
  | subst t v value =>
    apply (Term.records_subst (v := v) hR hc.1 hc.2.1).bind
    intro o p₁ _ ho
    exact .pure (any ho)
  | step t =>
    apply (Term.alike_step hR hc.1).bind
    intro o p₁ _ ho
    refine .pure (Term.recordedAll_iff.mpr fun u hu => ?_)
    obtain ⟨r, hr, rfl⟩ := List.mem_map.mp hu
    exact ho.recorded r (Option.mem_toList.mp hr)
  | run budget t args strict =>
    apply (Term.records_run hR budget strict hc.1 hc.2).bind
    intro out p₁ _ hout
    exact .pure ⟨hout, trivial⟩
  | walk budget limit t =>
    apply (Term.records_walk hR budget limit hc.1).bind
    intro l p₁ _ hl
    refine .pure (Term.recordedAll_iff.mpr fun u hu => ?_)
    obtain ⟨r, hr, rfl⟩ := List.mem_map.mp hu
    exact hl r hr
  | canonicalize budget t strict =>
    apply (Term.records_canonicalize hR budget strict hc.1).bind
    intro c p₁ _ hc
    exact .pure (any hc)

/-- The parts of a known term are known. -/
private theorem Term.Recorded.parts {ok : Native → Prop} {H : Heap} {t u : Term}
    (ht : t.Recorded ok H) (hu : u ∈ t.parts) : u.Recorded ok H := by
  cases t with
  | named info d =>
    rw [List.mem_singleton.mp hu]
    exact ht
  | lam v b =>
    rcases List.mem_cons.mp hu with rfl | hu
    · trivial
    · rw [List.mem_singleton.mp hu]
      exact ht
  | app n h as =>
    rcases List.mem_cons.mp hu with rfl | hu
    · exact ht.2.1
    · exact Term.recordedAll_iff.mp ht.2.2 u hu
  | _ => cases hu

/-! ### Sound tables -/

namespace Workspace

/-- Twins on both sides of which stands the store of a workspace, with all terms known. -/
structure Mirrors (p : Twins) (w : Workspace) : Prop where
  left : p.left = w.store
  right : p.right = w.store
  known : Term.KnownAll p.heap w.terms

private theorem Mirrors.knows {w : Workspace} (h : Mirrors p w) {ts : List Term}
    (hts : ∀ t ∈ ts, t ∈ w.terms) : Term.KnownAll p.heap ts :=
  Term.recordedAll_iff.mpr fun t ht => Term.recordedAll_iff.mp h.known t (hts t ht)

/-- The table of a call that ends is sound, and so is that of one that fails. -/
theorem Mirrors.outcome {w : Workspace} (h : Mirrors p w) {α : Type} {x : Engine α}
    {Q : α → Twins → Prop} (hx : Alike x x p Q) :
    (∀ a s, x w.store = .ok a s → ∃ p', p ≤ p' ∧ p'.left = s ∧ p'.right = s ∧ Q a p') ∧
      ∀ e s, x w.store = .error e s → ∃ p', p ≤ p' ∧ p'.left = s ∧ p'.right = s := by
  cases hx with
  | ok a p' hl hr later post =>
    rw [h.left] at hl
    rw [h.right, hl] at hr
    injection hr with _ hs
    refine ⟨fun b s hb => ?_, fun e s he => ?_⟩
    · rw [hl] at hb
      cases hb
      exact ⟨p', later, rfl, hs.symm, post⟩
    · rw [hl] at he
      cases he
  | error e p' hl hr later =>
    rw [h.left] at hl
    rw [h.right, hl] at hr
    injection hr with _ hs
    refine ⟨fun b s hb => ?_, fun e s he => ?_⟩
    · rw [hl] at hb
      cases hb
    · rw [hl] at he
      cases he
      exact ⟨p', later, rfl, hs.symm⟩

/-- A caller cannot spoil the table. -/
theorem Mirrors.move {w w' : Workspace} (h : Mirrors p w) (hm : Move w w') :
    ∃ p', p ≤ p' ∧ Mirrors p' w' := by
  cases hm with
  | mint hv =>
    obtain ⟨p', later, hl, hr, -⟩ := (h.outcome (Engine.alike_freshVariable p _)).1 _ _ hv
    exact ⟨p', later, hl, hr, trivial, h.known.later later⟩
  | identify hn =>
    obtain ⟨p', later, hl, hr, -⟩ := (h.outcome (Engine.alike_freshNode p)).1 _ _ hn
    exact ⟨p', later, hl, hr, h.known.later later⟩
  | native c => exact ⟨p, p.le_refl, h.left, h.right, trivial, h.known⟩
  | foreign x => exact ⟨p, p.le_refl, h.left, h.right, trivial, h.known⟩
  | part ht hu =>
    have whole := Term.recordedAll_iff.mp h.known _ ht
    exact ⟨p, p.le_refl, h.left, h.right, whole.parts hu, h.known⟩
  | call hR hc hok =>
    have alike := Call.records_perform (hR p h.known) _ (h.knows hc)
    obtain ⟨p', later, hl, hr, hts⟩ := (h.outcome alike).1 _ _ hok
    exact ⟨p', later, hl, hr, Term.recordedAll_append.mpr ⟨hts, h.known.later later⟩⟩
  | fail hR hc herror =>
    have alike := Call.records_perform (hR p h.known) _ (h.knows hc)
    obtain ⟨p', later, hl, hr⟩ := (h.outcome alike).2 _ _ herror
    exact ⟨p', later, hl, hr, h.known.later later⟩

/-- Nothing that a caller does spoils the table. -/
theorem Mirrors.moves {w w' : Workspace} (h : Mirrors p w) (hm : ReflTransGen Move w w') :
    ∃ p', p ≤ p' ∧ Mirrors p' w' := by
  induction hm with
  | refl => exact ⟨p, p.le_refl, h⟩
  | tail _ hstep ih =>
    obtain ⟨p₁, later, h₁⟩ := ih
    obtain ⟨p₂, later', h₂⟩ := h₁.move hstep
    exact ⟨p₂, Twins.le_trans later later', h₂⟩

/-- Nothing is at hand at first. -/
private theorem exists_mirrors_start : ∃ p, Mirrors p ⟨{}, [], []⟩ :=
  ⟨.start, rfl, rfl, trivial⟩

/-- In every workspace that is reached the table of settled applications is sound. -/
theorem Reachable.exists_twins {w : Workspace} (h : w.Reachable) : ∃ p, Mirrors p w := by
  obtain ⟨start, mirrors⟩ := exists_mirrors_start
  obtain ⟨p, -, hp⟩ := mirrors.moves h
  exact ⟨p, hp⟩

/-! ### Later workspaces -/

/-- What a caller has at hand stays at hand, and variables that were asked for later are new. -/
structure Later (w w' : Workspace) : Prop where
  store : w.store ≤ w'.store
  terms : ∀ t ∈ w.terms, t ∈ w'.terms
  free : ∀ v ∈ w'.free, v ∈ w.free ∨ (¬ w.store.Minted v ∧ w'.store.Minted v)

/-- What comes later than something later comes later. -/
theorem Later.trans {w₁ w₂ w₃ : Workspace} (h : Later w₁ w₂) (h' : Later w₂ w₃) : Later w₁ w₃ where
  store := Store.le_trans h.store h'.store
  terms t ht := h'.terms t (h.terms t ht)
  free v hv := by
    rcases h'.free v hv with hv | ⟨hfresh, hminted⟩
    · exact (h.free v hv).imp id fun ⟨hfresh, hminted⟩ => ⟨hfresh, hminted.mono h'.store⟩
    · exact .inr ⟨fun hv => hfresh (hv.mono h.store), hminted⟩

private theorem Mirrors.later_of_move {w w' : Workspace} (h : Mirrors p w) (hm : Move w w') :
    Later w w' := by
  obtain ⟨p', later, hp'⟩ := h.move hm
  have store : w.store ≤ w'.store := by
    rw [← h.left, ← hp'.left]
    exact later.nextVariable
  cases hm with
  | mint hv =>
    refine ⟨store, fun _ ht => List.mem_cons_of_mem _ ht, fun v hmem => ?_⟩
    rcases List.mem_cons.mp hmem with rfl | hmem
    · exact .inr (Engine.ensures_freshVariable _ _ _ _ hv).2
    · exact .inl hmem
  | identify => exact ⟨store, fun _ ht => ht, fun _ hv => .inl hv⟩
  | native c => exact ⟨store, fun _ ht => List.mem_cons_of_mem _ ht, fun _ hv => .inl hv⟩
  | foreign x => exact ⟨store, fun _ ht => List.mem_cons_of_mem _ ht, fun _ hv => .inl hv⟩
  | part => exact ⟨store, fun _ ht => List.mem_cons_of_mem _ ht, fun _ hv => .inl hv⟩
  | call => exact ⟨store, fun _ ht => List.mem_append_right _ ht, fun _ hv => .inl hv⟩
  | fail => exact ⟨store, fun _ ht => ht, fun _ hv => .inl hv⟩

theorem Mirrors.later {w w' : Workspace} (h : Mirrors p w) (hm : ReflTransGen Move w w') :
    Later w w' := by
  induction hm with
  | refl => exact ⟨w.store.le_refl, fun _ ht => ht, fun _ hv => .inl hv⟩
  | tail hmoves hstep ih =>
    obtain ⟨p', -, hp'⟩ := h.moves hmoves
    exact ih.trans (hp'.later_of_move hstep)

/-- The variables that were asked for have been minted. -/
theorem Reachable.minted {w : Workspace} (h : w.Reachable) : ∀ v ∈ w.free, w.store.Minted v := by
  obtain ⟨start, mirrors⟩ := exists_mirrors_start
  exact fun v hv => ((mirrors.later h).free v hv).resolve_left nofun |>.2

end Workspace

/-- The rules of the declarations of a session are functions of their arguments, as long as all
declared names stand for terms at hand. -/
theorem Declarations.steadyOver_rules (d : Declarations) (depth : Nat) {ts : List Term}
    (hd : ∀ q ∈ d.names, q.2 ∈ ts) : (d.rules depth).SteadyOver ts :=
  fun _ hp => d.steady_rules depth fun q hq => Term.recordedAll_iff.mp hp _ (hd q hq)

/-- The rules of a session without declarations. -/
def Rules.undeclared : Rules := ({} : Declarations).rules 0

theorem Rules.steadyOver_undeclared (ts : List Term) : Rules.undeclared.SteadyOver ts :=
  Declarations.steadyOver_rules {} 0 nofun

namespace Workspace

variable {w : Workspace} {t : Term} {s : Store}

/-- A caller can apply what is at hand. -/
theorem Reachable.apply {f : Term} {l : List Term} (h : w.Reachable)
    (hR : R.SteadyOver w.terms) (hmem : ∀ u ∈ f :: l, u ∈ w.terms)
    (happly : f.apply R l w.store = .ok t s) : Reachable ⟨s, w.free, t :: w.terms⟩ :=
  ReflTransGen.tail h (.call (w := w) (c := .apply f l) hR hmem
    (Engine.bind_ok_iff.mpr ⟨_, _, happly, rfl⟩))

/-- A caller can abstract what is at hand. -/
theorem Reachable.lambda {binders : List Term} {body : Term} {listed : Bool} (h : w.Reachable)
    (hR : R.SteadyOver w.terms) (hmem : ∀ u ∈ body :: binders, u ∈ w.terms)
    (hlambda : Term.lambdaOver R listed binders body w.store = .ok t s) :
    Reachable ⟨s, w.free, t :: w.terms⟩ :=
  ReflTransGen.tail h (.call (w := w) (c := .lambda listed binders body) hR hmem
    (Engine.bind_ok_iff.mpr ⟨_, _, hlambda, rfl⟩))

end Workspace

end Combinatory
