import Combinatory.Proofs.Descent
import Combinatory.Proofs.Workspace

/-!
# The table of settled applications

In every workspace that a caller can reach, the search for a step along a path does what the
leftmost outermost strategy does that knows of no table and keeps no path. All that the table holds
has no step, and a search that finds nothing leaves everything that it has looked through in the
table.
-/

namespace Combinatory

/-- The store with an empty table. -/
def Store.untabled (s : Store) : Store := { s with settled := ∅ }

/-- What a computation gives, apart from the table. -/
def Engine.untabled {α : Type} : EStateM.Result Failure Store α → EStateM.Result Failure Store α
  | .ok a s => .ok a s.untabled
  | .error e s => .error e s.untabled

namespace Workspace

variable {p : Twins} {w : Workspace}

/-- The twins of which one has forgotten the table. -/
theorem Mirrors.exists_untabled (h : Mirrors p w) :
    ∃ q : Twins, q.left = w.store ∧ q.right = w.store.untabled ∧ Term.KnownAll q.heap w.terms :=
  ⟨{ p with
      right := p.right.untabled
      nextVariable := p.nextVariable
      nextNode := p.nextNode
      right_sound := fun _ hn => absurd hn Std.HashSet.not_mem_empty },
    h.left, congrArg Store.untabled h.right, h.known⟩

/-- A step over a table gives what the strategy gives over an empty one. -/
private theorem Mirrors.step_eq (h : Mirrors p w) {R : Rules} {t : Term}
    (hR : R.SteadyOver w.terms) (ht : t ∈ w.terms) :
    Engine.untabled (t.step R w.store) = Engine.untabled (t.leftmost R w.store.untabled) := by
  obtain ⟨q, hl, hr, hq⟩ := h.exists_untabled
  have known : t.Known q.heap := Term.recordedAll_iff.mp hq t ht
  have same (q' : Twins) : q'.left.untabled = q'.right.untabled := by
    simp only [Store.untabled, q'.nextVariable, q'.nextNode]
  rw [← hr, ← hl]
  cases Term.alike_step_leftmost (hR q hq) known with
  | ok o q' hx hy _ _ =>
    rw [hx, hy]
    exact congrArg (EStateM.Result.ok o) (same q')
  | error e q' hx hy _ =>
    rw [hx, hy]
    exact congrArg (EStateM.Result.error e) (same q')

/-- What the table holds has no step. -/
private theorem Mirrors.settled_idle (h : Mirrors p w) :
    ∀ n ∈ w.store.settled, ∃ hd as, p.heap n = some (hd, as) ∧
      ∀ R s, (Term.app n hd as).leftmost R s = .ok none s := by
  intro n hn
  rw [← h.left] at hn
  obtain ⟨hd, as, hheap, hidle, -⟩ := p.left_sound n hn
  exact ⟨hd, as, hheap, fun R s => Term.leftmost_eq_none_iff.mpr ⟨hidle, rfl⟩⟩

/-- A step that finds nothing remembers what it has looked through. -/
private theorem Mirrors.nodes_settled (h : Mirrors p w) {R : Rules} {t : Term} {s : Store}
    (hR : R.SteadyOver w.terms) (ht : t ∈ w.terms) (hstep : t.step R w.store = .ok none s) :
    ∀ n ∈ t.nodes, n ∈ s.settled := by
  have known : t.Known p.heap := Term.recordedAll_iff.mp h.known t ht
  rw [← h.left] at hstep
  cases Term.alike_step (hR p h.known) known with
  | ok o p' hx _ _ post =>
    rw [hstep] at hx
    cases hx
    exact post.left rfl rfl
  | error e p' hx _ _ =>
    rw [hstep] at hx
    cases hx

/-- In every workspace that a caller can reach, the search along a path gives exactly what the
strategy gives that knows of no table; every application in the table is one that has no step; and
when the search finds nothing, all applications reached through heads and arguments are in the
table. The steps of runs and walks are those that the search finds. -/
theorem Reachable.step_realizes_leftmost (h : w.Reachable) :
    (∀ R (t : Term), t.stepOnPath R = t.step R) ∧
    (∀ R t, R.SteadyOver w.terms → t ∈ w.terms →
      Engine.untabled (t.stepOnPath R w.store) =
        Engine.untabled (t.leftmost R w.store.untabled)) ∧
    (∃ H : Heap, Term.KnownAll H w.terms ∧ ∀ n ∈ w.store.settled, ∃ hd as,
      H n = some (hd, as) ∧ ∀ R s, (Term.app n hd as).leftmost R s = .ok none s) ∧
    ∀ R t s, R.SteadyOver w.terms → t ∈ w.terms → t.stepOnPath R w.store = .ok none s →
      ∀ n ∈ t.nodes, n ∈ s.settled := by
  obtain ⟨p, hp⟩ := h.exists_twins
  refine ⟨Term.stepOnPath_eq_step, fun R t hR ht => ?_, ⟨p.heap, hp.known, hp.settled_idle⟩,
    fun R t s hR ht hstep => ?_⟩
  · rw [Term.stepOnPath_eq_step]
    exact hp.step_eq hR ht
  · rw [Term.stepOnPath_eq_step] at hstep
    exact hp.nodes_settled hR ht hstep

/-! ### A workspace with a term that is remembered -/

namespace Sample

/-- A variable that was asked for. -/
def x : Variable := ⟨"x", 1⟩

/-- The application `x x`, which has no step. -/
def self : Term := .app 0 (.var x) [.var x]

/-- The application `I (x x)`. -/
def term : Term := .app 1 (.native .I) [self]

/-- What is at hand after `x x` was looked through in vain. -/
def workspace : Workspace :=
  ⟨⟨2, 2, (∅ : Std.HashSet Nat).insert 0⟩, [x], [term, self, .native .I, .var x]⟩

/-- The sample is reached by five calls. -/
theorem reachable : workspace.Reachable := by
  have minted : Reachable ⟨⟨2, 0, ∅⟩, [x], [.var x]⟩ := .single (.mint (v := x) rfl)
  have named : Reachable ⟨⟨2, 0, ∅⟩, [x], [.native .I, .var x]⟩ := minted.tail (.native .I)
  have applied : Reachable ⟨⟨2, 1, ∅⟩, [x], [self, .native .I, .var x]⟩ :=
    named.apply (f := .var x) (l := [.var x]) (Rules.steadyOver_undeclared _) (by simp) rfl
  have nothing : Call.perform Rules.undeclared (.step self) ⟨2, 1, ∅⟩ =
      .ok [] ⟨2, 1, (∅ : Std.HashSet Nat).insert 0⟩ := by
    simp [Call.perform, self, Term.step, Term.stepAmong, Term.reduce, Engine.isSettled,
      Engine.settle, bind, EStateM.bind, pure, EStateM.pure]
  have looking := Move.call (w := ⟨⟨2, 1, ∅⟩, [x], [self, .native .I, .var x]⟩)
    (Rules.steadyOver_undeclared _) (by simp [Call.inputs]) nothing
  have looked : Reachable ⟨⟨2, 1, (∅ : Std.HashSet Nat).insert 0⟩, [x],
      [self, .native .I, .var x]⟩ := applied.tail looking
  exact looked.apply (f := .native .I) (l := [self]) (Rules.steadyOver_undeclared _) (by simp) rfl

end Sample

/-- The strategy finds no step in what the sample remembers, and the search for a step of the sample
does what the strategy does. -/
theorem step_realizes_leftmost_sample :
    Sample.workspace.Reachable ∧
    Engine.untabled (Sample.term.stepOnPath Rules.undeclared Sample.workspace.store) =
      Engine.untabled (Sample.term.leftmost Rules.undeclared Sample.workspace.store.untabled) ∧
    ∀ R s, Sample.self.leftmost R s = .ok none s := by
  obtain ⟨-, same, ⟨H, known, idle⟩, -⟩ := Sample.reachable.step_realizes_leftmost
  refine ⟨Sample.reachable, same _ _ (Rules.steadyOver_undeclared _) List.mem_cons_self, ?_⟩
  obtain ⟨hd, as, hheap, hidle⟩ := idle 0 Std.HashSet.mem_insert_self
  have recorded : H 0 = some (.var Sample.x, [.var Sample.x]) := known.2.1.1
  rw [recorded] at hheap
  cases hheap
  exact hidle

end Workspace

end Combinatory
