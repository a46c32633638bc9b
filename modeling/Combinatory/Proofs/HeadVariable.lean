import Combinatory.Proofs.Definitions
import Combinatory.Proofs.SpentBudget
import Combinatory.Proofs.Termination
import Combinatory.Proofs.Tower.Probes

/-!
# Terms headed by a variable

A term that awaits no arguments goes on to such terms only, since its head is a variable or a name
that stands for such a term. So it has a canonical form of arity zero at most, and a name for it
waits for no arguments: whatever is built, the names that wait stand for terms that await arguments
(`Builds.namesWait`). It follows that an idle term that awaits no arguments is headed by a variable
itself, and not only by a name for one (`Term.Idle.headedByVariable`).
-/

namespace Combinatory

variable {R : Rules} {s s' : Store}

namespace Term

/-- Whether the head of a term is a variable. -/
def HeadedByVariable : Term → Prop
  | var _ => True
  | app _ h _ => HeadedByVariable h
  | _ => False

/-! ### What awaits no arguments goes on awaiting none -/

theorem awaitsArgs_of_apply {t u : Term} {as : List Term} (ht : t.awaitsArgs = false)
    (h : t.apply R as s = .ok u s') : u.awaitsArgs = false := by
  unfold apply at h
  cases hl : firstLiteral as with
  | some l =>
    rw [hl] at h
    cases h
  | none =>
    rw [hl] at h
    cases as with
    | nil =>
      unfold extend at h
      cases h
      exact ht
    | cons a as =>
      cases t with
      | native _ => cases ht
      | _ =>
        cases h
        exact ht

private theorem awaitsArgs_of_reduce {h u : Term} {as : List Term} (hh : h.awaitsArgs = false)
    (hred : h.reduce R as s = .ok (some u) s') : u.awaitsArgs = false := by
  cases h with
  | native _ => cases hh
  | lam _ _ => cases hh
  | named info d =>
    unfold reduce at hred
    obtain ⟨m, s₁, -, hred⟩ := Engine.bind_ok_iff.mp hred
    split at hred
    · cases hred
    · obtain ⟨v, s₂, happly, hred⟩ := Engine.bind_ok_iff.mp hred
      cases hred
      exact awaitsArgs_of_apply (t := d) hh happly
  | _ => cases hred

/-- A step leaves no argument awaited where none was. -/
theorem awaitsArgs_of_step : ∀ {t : Term} {r : Stepped} {s s' : Store}, t.awaitsArgs = false →
    t.step R s = .ok (some r) s' → r.term.awaitsArgs = false
  | var _, _, _, _, _, h => by
    unfold step at h
    cases h
  | native _, _, _, _, ht, _ => nomatch ht
  | foreign _, _, _, _, ht, _ => nomatch ht
  | lam _ _, _, _, _, ht, _ => nomatch ht
  | named info d, _, _, _, ht, h => by
    unfold step at h
    split at h
    · cases h
      exact ht
    · cases h
  | app n g as, _, _, _, ht, h => by
    have hg : g.awaitsArgs = false := ht
    unfold step at h
    obtain ⟨known, s₁, -, h⟩ := Engine.bind_ok_iff.mp h
    cases known with
    | true => cases h
    | false =>
      obtain ⟨o, s₂, hred, h⟩ := Engine.bind_ok_iff.mp h
      cases o with
      | some u =>
        cases h
        exact awaitsArgs_of_reduce hg hred
      | none =>
        obtain ⟨o, s₃, hstep, h⟩ := Engine.bind_ok_iff.mp h
        cases o with
        | some g' =>
          obtain ⟨u, s₄, happly, h⟩ := Engine.bind_ok_iff.mp h
          cases h
          exact awaitsArgs_of_apply (awaitsArgs_of_step hg hstep) happly
        | none =>
          obtain ⟨o, s₄, -, h⟩ := Engine.bind_ok_iff.mp h
          cases o with
          | some as' =>
            obtain ⟨u, s₅, happly, h⟩ := Engine.bind_ok_iff.mp h
            cases h
            exact awaitsArgs_of_apply hg happly
          | none =>
            obtain ⟨_, s₅, -, h⟩ := Engine.bind_ok_iff.mp h
            cases h

end Term

/-- Nor does a run. -/
theorem Trail.awaitsArgs {budget : Int} {x y : Stage} {l : List Run}
    (h : Trail R budget x l y) (hx : x.term.awaitsArgs = false) : y.term.awaitsArgs = false := by
  induction h with
  | here => exact hx
  | round _ hstep _ ih => exact ih (Term.awaitsArgs_of_step hx hstep)

/-- So a search feeds such a term no probes. -/
theorem Term.arity_eq_zero_of_canonicalize {t : Term} (made : t.MadeOf .pure)
    (ht : t.awaitsArgs = false) {budget : Budget} {strict : Bool} {form : CanonicalForm} {k : Nat}
    (found : t.canonicalize R budget strict s = .ok (.found form k) s') : form.arity = 0 := by
  obtain ⟨m, -, found⟩ := canonicalize_found_iff.mp found
  cases hm : m.toNat with
  | zero =>
    rw [hm] at found
    cases found
  | succ left =>
    rw [hm] at found
    obtain ⟨u, n, s₁, hrun, next⟩ := searchFrom_found_iff.mp found
    obtain ⟨_, l, _, -, trail, -⟩ := exists_trail_of_final (Kinds.closed_pure R) made hrun rfl
    have done : u.awaitsArgs = false := trail.awaitsArgs ht
    rcases next with ⟨-, hclose, -⟩ | ⟨awaits, -⟩
    · exact arity_of_closeProbes hclose
    · rw [done] at awaits
      cases awaits

/-! ### Names that wait -/

/-- Whether a name that waits for arguments stands for a term that awaits some. -/
def NameInfo.WaitsFor (info : NameInfo) (d : Term) : Prop :=
  info.isOpen = true ∨ d.awaitsArgs = true

/-- A name for a term waits for arguments only if the term awaits some. -/
theorem Naming.waitsFor_of_ofTerm {budget : Budget} {name note : Literal} {t : Term}
    {terminal : Option Literal} {canonize : Bool} {n : Naming} (made : t.MadeOf .pure)
    (h : ofTerm R budget name t terminal canonize note s = .ok n s') :
    n.info.WaitsFor n.definition := by
  cases canonize with
  | false =>
    obtain ⟨-, harity, -⟩ := ensures_new _ _ _ _ _ _ _ _ _ h
    exact .inl (by rw [NameInfo.isOpen, harity]; rfl)
  | true =>
    obtain ⟨c, s₁, hc, h⟩ := Engine.bind_ok_iff.mp h
    obtain ⟨-, harity, rfl, -⟩ := ensures_new _ _ _ _ _ _ _ _ _ h
    by_cases ht : n.definition.awaitsArgs = true
    · exact .inr ht
    · refine .inl ?_
      rw [NameInfo.isOpen, harity]
      cases c with
      | notFound _ _ => rfl
      | found form k =>
        dsimp only
        rw [Term.arity_eq_zero_of_canonicalize made (Bool.not_eq_true _ ▸ ht) hc, ite_self]
        rfl

/-- All names that are built wait for arguments only if their terms await some. -/
theorem Builds.namesWait {ts : List Term} (h : Builds s ts) :
    ∀ t ∈ ts, t.WellFormed ∧ t.Defines NameInfo.WaitsFor := by
  induction h with
  | start => exact List.forall_mem_nil _
  | elapse _ _ ih => exact ih
  | mint _ _ ih => exact List.forall_mem_cons.mpr ⟨⟨trivial, trivial⟩, ih⟩
  | native _ hc ih => exact List.forall_mem_cons.mpr ⟨⟨hc, trivial⟩, ih⟩
  | @apply _ _ _ _ R _ _ _ hf has hu ih =>
    have kept := ((Term.defines_invariant R _).apply (ih _ hf) fun a ha => ih a (has a ha)).of_ok hu
    exact List.forall_mem_cons.mpr ⟨kept, ih⟩
  | @lambda _ _ _ binders R listed _ _ _ _ hbody hu ih =>
    have kept := ((Term.defines_invariant R _).lambdaOver listed binders (ih _ hbody)).of_ok hu
    exact List.forall_mem_cons.mpr ⟨kept, ih⟩
  | @define _ _ _ _ _ _ _ _ _ _ n h ht hn ih =>
    have waits := Naming.waitsFor_of_ofTerm (h.madeOf ht) hn
    obtain ⟨-, rfl⟩ := Naming.arity_of_ofTerm hn
    obtain ⟨hwf, hdefines⟩ := ih _ ht
    exact List.forall_mem_cons.mpr ⟨⟨hwf, waits, hdefines⟩, ih⟩

/-- An idle term that awaits no arguments is headed by a variable. -/
theorem Term.Idle.headedByVariable : ∀ {t : Term}, t.Idle → t.awaitsArgs = false →
    t.Defines NameInfo.WaitsFor → t.HeadedByVariable
  | .var _, _, _, _ => trivial
  | .native _, _, done, _ => nomatch done
  | .foreign _, _, done, _ => nomatch done
  | .lam _ _, _, done, _ => nomatch done
  | .named info d, idle, done, ⟨waits, _⟩ => by
    have closed : info.isOpen = false := idle
    have awaits : d.awaitsArgs = false := done
    rw [NameInfo.WaitsFor, closed, awaits] at waits
    exact waits.elim nofun nofun
  | .app _ h _, ⟨_, idle, _⟩, done, ⟨waits, _⟩ => headedByVariable (t := h) idle done waits

end Combinatory
