import Combinatory.Proofs.Combination.Runs
import Combinatory.Proofs.Workspace

/-!
# Normal order finds normal forms

A combination that rewrites connect, forwards and backwards, at any place and in any order, to one
that has a final run is run to an equal result by every budget that is large enough. So a normal
form does not depend on the order of rewriting, and normal order finds it whenever there is one.
-/

namespace Combinatory

open Relation (EqvGen)
open Combination (Rewrites Leads)

namespace Workspace

/-- What a workspace holds can be stood at. -/
theorem Mirrors.stands {p : Twins} {w : Workspace} (h : Mirrors p w) {t : Term}
    (ht : t ∈ w.terms) (ct : t.IsCombination) : Stands p t t.combination :=
  ⟨(Term.recordedAll_iff.mp h.known t ht).isPure ct, .self ct⟩

variable {w : Workspace} {t : Term}

/-- A final run of a combination ends with a normal form that the leftmost strategy leads to. -/
theorem Reachable.leads_of_run (h : w.Reachable) (ht : t ∈ w.terms) (ct : t.IsCombination)
    {R : Rules} {budget : Amount} {strict : Bool} {out : Run} {s : Store}
    (hrun : t.run R budget [] strict w.store = .ok out s) (hfinal : out.final = true) :
    ∃ n, Leads t.combination n ∧ n.next = none ∧ out.term.Forms n := by
  obtain ⟨p, hp⟩ := h.exists_twins
  obtain ⟨b, -, hrun, -⟩ := Term.run_nil_ok_iff.mp hrun
  rw [← hp.left] at hrun
  exact Term.leads_of_runFrom (hp.stands ht ct) hrun hfinal

/-- A combination that is connected by rewrites to one with a final run is run to an equal result,
by every budget from some budget on. -/
theorem Reachable.run_final_of_connected (h : w.Reachable) (ht : t ∈ w.terms)
    (ct : t.IsCombination) {R : Rules} {budget : Amount} {strict : Bool} {out : Run} {s : Store}
    (hrun : t.run R budget [] strict w.store = .ok out s) (hfinal : out.final = true) {u : Term}
    (cu : u.IsCombination) (connected : EqvGen Rewrites t.combination u.combination) :
    ∃ M : Nat, ∀ w' : Workspace, w'.Reachable → u ∈ w'.terms →
      ∀ (R' : Rules) (budget' : Amount) (b : Int) (strict' : Bool), budget'.bound? = some b →
        M ≤ b → ∃ out' s', u.run R' budget' [] strict' w'.store = .ok out' s' ∧
          out'.final = true ∧ out'.term.equal R' out.term = pure true := by
  obtain ⟨n, hleads, hn, hout⟩ := h.leads_of_run ht ct hrun hfinal
  have leads := Combination.leads_of_connected connected hleads hn
  obtain ⟨M, hM⟩ := Term.runFrom_of_leads leads hn
  refine ⟨M, fun w' h' hu R' budget' b strict' hb hle => ?_⟩
  obtain ⟨p, hp⟩ := h'.exists_twins
  obtain ⟨out', p', -, hrun', hend⟩ :=
    hM (hp.stands hu cu) R' b 0 Term.patience (by omega)
  rw [hp.left] at hrun'
  refine ⟨out', p'.left, ?_, hend.final, Term.equal_of_forms R' hend.forms hout⟩
  exact Term.run_nil_ok_iff.mpr ⟨b, hb, hrun', fun _ => hend.final⟩

/-! ### Two ways to a variable -/

namespace Rivals

/-- A variable that was asked for. -/
def x : Variable := ⟨"x", 1⟩

/-- The application `I x`. -/
def short : Term := .app 0 (.native .I) [.var x]

/-- The application `K x (I x)`. -/
def long : Term := .app 1 (.native .K) [.var x, short]

/-- What is at hand after both were built. -/
def workspace : Workspace :=
  ⟨⟨2, 2, ∅⟩, [x], [long, short, .native .K, .native .I, .var x]⟩

/-- The terms are built from a variable and two combinators. -/
theorem reachable : workspace.Reachable := by
  have minted : Reachable ⟨⟨2, 0, ∅⟩, [x], [.var x]⟩ := .single (.mint (v := x) rfl)
  have named : Reachable ⟨⟨2, 0, ∅⟩, [x], [.native .K, .native .I, .var x]⟩ :=
    (minted.tail (.native .I)).tail (.native .K)
  have first : Reachable ⟨⟨2, 1, ∅⟩, [x], [short, .native .K, .native .I, .var x]⟩ :=
    named.apply (f := .native .I) (l := [.var x]) (Rules.steadyOver_undeclared _) (by simp) rfl
  exact first.apply (f := .native .K) (l := [.var x, short]) (Rules.steadyOver_undeclared _)
    (by simp) rfl

/-- The longer term is run to the variable in one step. -/
theorem run_long : long.run Rules.undeclared (.number 1) [] false workspace.store =
    .ok ⟨.var x, 1, true⟩ workspace.store := by
  have step : long.step Rules.undeclared workspace.store =
      .ok (some ⟨.var x, 1⟩) workspace.store := by
    simp [long, workspace, Term.step, Engine.isSettled, Term.reduce, Native.contract,
      Native.arity, Term.apply_nil, bind, EStateM.bind, pure, EStateM.pure]
  have ran : Term.runFrom Rules.undeclared 1 long 0 Term.patience workspace.store =
      .ok ⟨.var x, 1, true⟩ workspace.store := by
    rw [Term.runFrom_of_step (by decide) step Nat.one_ne_zero]
    exact Term.runFrom_of_normal rfl
  exact Term.run_nil_ok_iff.mpr ⟨1, rfl, ran, by simp⟩

/-- Both terms are rewritten to the variable. -/
theorem connected : EqvGen Rewrites long.combination short.combination := by
  have fromLong : Rewrites long.combination (.var x) :=
    @Rewrites.fire .K _ [.var x, short.combination] rfl rfl
  have fromShort : Rewrites short.combination (.var x) :=
    @Rewrites.fire .I _ [.var x] rfl rfl
  exact .trans _ _ _ (.rel _ _ fromLong) (.symm _ _ (.rel _ _ fromShort))

end Rivals

/-- The shorter term is run to the same variable by every budget from some budget on. -/
theorem run_final_of_connected_sample :
    Rivals.workspace.Reachable ∧ EqvGen Rewrites Rivals.long.combination Rivals.short.combination ∧
      ∃ M : Nat, ∀ b : Int, M ≤ b → ∃ out s,
        Rivals.short.run Rules.undeclared (.number b) [] false Rivals.workspace.store = .ok out s ∧
          out.final = true ∧ out.term.equal Rules.undeclared (.var Rivals.x) = pure true := by
  obtain ⟨M, hM⟩ := Rivals.reachable.run_final_of_connected (u := Rivals.short)
    List.mem_cons_self ⟨rfl, nofun, trivial, ⟨rfl, nofun, trivial, trivial⟩, trivial⟩
    Rivals.run_long rfl ⟨rfl, nofun, trivial, trivial⟩ Rivals.connected
  have mem : Rivals.short ∈ Rivals.workspace.terms := List.mem_cons_of_mem _ List.mem_cons_self
  exact ⟨Rivals.reachable, Rivals.connected, M, fun b hb =>
    hM _ Rivals.reachable mem Rules.undeclared (.number b) b false rfl hb⟩

end Workspace

end Combinatory
