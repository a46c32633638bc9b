import Combinatory.Numeral
import Combinatory.Proofs.Building
import Combinatory.Proofs.Ending.Bracket
import Combinatory.Proofs.Ending.LambdaForm

/-!
# Every operation with a budget ends

Whatever has been built, and whatever the rules and the store: a run looks for a step only finitely
often, although opening a name costs nothing, and so a run, the search for a canonical form, the
naive and the lighter lambda forms and the bracket form all end within limits that are numbers
(`Builds.operations_end`). None of them ever gives up because it nests too deeply. They have a
result, or they fail because a numeral gets too long, because the caller insists on a result that is
not found, or because a combinator has no canonical form.
-/

namespace Combinatory

open Engine (Ends)

/-! ### Terms as they are built -/

namespace Term

variable {K : Kinds} {R : Rules}

private theorem madeOf_lambdas (hK : K.Closed R) (binders : List Term) {body : Term}
    (hbody : body.MadeOf K) : Ends (lambdas R binders body) (fun _ => True) (MadeOf K) := by
  unfold lambdas
  split
  · exact .bind (P := fun _ => False) (.throw trivial) nofun
  · cases distinctBinders [] binders with
    | error e => exact .bind (P := fun _ => False) (.throw trivial) nofun
    | ok vs => exact (ends_abstractAll hK hbody vs).widen fun _ _ => trivial

/-- An abstraction that is made is made of the kinds at hand, however its binders are given. -/
private theorem madeOf_lambdaOver (hK : K.Closed R) (listed : Bool) (binders : List Term)
    {body : Term} (hbody : body.MadeOf K) :
    Ends (lambdaOver R listed binders body) (fun _ => True) (MadeOf K) := by
  unfold lambdaOver
  split
  · split
    · exact madeOf_lambdas hK _ hbody
    · unfold lambda
      split
      · exact (ends_abstract_madeOf hK _ hbody).widen fun _ _ => trivial
      · exact .throw trivial
  · exact madeOf_lambdas hK _ hbody

end Term

namespace Builds

variable {s : Store} {ts : List Term} {t : Term}

private theorem madeOfAll (h : Builds s ts) : Term.MadeOfAll .pure ts := by
  induction h with
  | start => exact .nil
  | elapse _ _ ih => exact ih
  | mint _ _ ih => exact .cons (t := .var _) trivial ih
  | native _ hc ih => exact .cons (t := .native _) hc ih
  | @apply _ _ _ _ R _ _ _ hf has hu ih =>
    have made := Term.madeOfAll_iff.mp ih
    have args := Term.madeOfAll_iff.mpr fun a ha => made a (has a ha)
    exact .cons ((Term.ends_apply_madeOf (Kinds.closed_pure R) (made _ hf) args).of_ok hu) ih
  | @lambda _ _ _ _ R _ _ _ _ _ hbody hu ih =>
    have made := Term.madeOfAll_iff.mp ih
    exact .cons ((Term.madeOf_lambdaOver (Kinds.closed_pure R) _ _ (made _ hbody)).of_ok hu) ih
  | define _ ht hn ih =>
    obtain ⟨harity, rfl⟩ := Naming.arity_of_ofTerm hn
    exact .cons (t := .named _ _) ⟨harity, Term.madeOfAll_iff.mp ih _ ht⟩ ih

/-- A term that was built is made of combinators that stand for lambda terms and of names that wait
for a number of arguments. -/
theorem madeOf (h : Builds s ts) (ht : t ∈ ts) : t.MadeOf .pure :=
  Term.madeOfAll_iff.mp h.madeOfAll t ht

/-! ### Operations -/

/-- Every operation with a budget ends, for every term that was built, whatever the rules and the
store. For every budget there is a bound on the rounds that a run or a walk makes. Within limits
that are numbers, a run, the search for a canonical form, the naive lambda form, the search for
lighter ones and the compilation to bracket form have a result, or they fail for a cause named
here. -/
theorem operations_end (h : Builds s ts) (ht : t ∈ ts) (R : Rules) {limits : Budget}
    (hl : limits.Numeric) :
    (∀ s₁ budget, ∃ N, ∀ l y, Trail R budget ⟨t, 0, s₁⟩ l y → l.length ≤ N) ∧
    (∀ args strict, (∀ a ∈ args, a ∈ ts) → Ends (t.run R limits.steps args strict)
      (fun e => e = .numeralTooLong ∨ strict = true ∧ e = .runOutOfSteps t limits.steps)
      fun _ => True) ∧
    (∀ strict, Ends (t.canonicalize R limits strict)
      (fun e => e = .numeralTooLong ∨
        strict = true ∧ e = .canonicalNotFound t limits.args limits.steps) fun _ => True) ∧
    Ends (t.naiveForm R limits) (fun e => e = .numeralTooLong ∨ ∃ u, e = .noCanonicalForm u)
      (fun _ => True) ∧
    (∀ ceiling limit s₁, ceiling.Proper →
      ∃ found s₂, t.lighterForms R limits ceiling limit .ok s₁ = .ok found s₂ ∧
        ∀ e, found.failure = some e → e = .numeralTooLong) ∧
    ∀ maxSteps : Amount, (∃ n, maxSteps.goal? = some n) →
      Ends (t.bracketForm R limits maxSteps) (· = .numeralTooLong) fun _ => True := by
  have hK := Kinds.closed_pure R
  have made := h.madeOf ht
  have hbase : Kinds.pure.HasBase := fun c hc => by cases c <;> first | rfl | cases hc
  obtain ⟨b, hb⟩ := hl.steps
  refine ⟨fun s₁ budget => Trail.exists_length_le hK budget _ made, ?_, ?_, ?_, ?_, ?_⟩
  · intro args strict hargs
    have madeArgs := Term.madeOfAll_iff.mpr fun a ha => h.madeOf (hargs a ha)
    exact (Term.ends_run hK hb made madeArgs strict).mono
      (fun _ he => he.imp And.left id) fun _ _ => trivial
  · intro strict
    exact (Term.ends_canonicalize hK hl made strict).mono
      (fun _ he => he.imp And.left id) fun _ _ => trivial
  · exact (Term.ends_naiveForm hK hl made).mono (fun _ he => he.imp And.left id) fun _ _ => trivial
  · intro ceiling limit s₁ hc
    obtain ⟨found, s₂, hfound, hfailure⟩ := Term.exists_lighterForms hK id hl made hc limit s₁
    exact ⟨found, s₂, hfound, fun e he => (hfailure e he).1⟩
  · rintro maxSteps ⟨n, hn⟩
    exact (Term.ends_bracketForm hK hbase hl hn made).mono (fun _ he => he.1) fun _ _ => trivial

end Builds

/-! ### Names within names -/

namespace Nested

/-- A free variable. -/
def x : Variable := ⟨"x", 1⟩

/-- What is known of a name that waits for no arguments. -/
def info (ident : Nat) (name : String) : NameInfo :=
  ⟨ident, name, .number 0, .bool false, .bool false, .null⟩

/-- A name for the identity combinator. -/
def inner : Term := .named (info 0 "T") (.native .I)

/-- A name for that name. -/
def outer : Term := .named (info 1 "U") inner

/-- The application of the variable to the outer name, which takes two rounds that cost nothing. -/
def term : Term := .app 2 (.var x) [outer]

/-- The store that the engine has reached when the term is built. -/
def store : Store := ⟨2, 3, ∅⟩

/-- All terms built on the way. -/
def built : List Term := [term, outer, inner, .native .I, .var x]

/-- The limits of the computations shown. -/
def limits : Budget := ⟨.number 5, .number 2⟩

/-- Both names are given without a search for a canonical form. -/
theorem builds : Builds store built := by
  have free : Builds ⟨2, 0, ∅⟩ [.native .I, .var x] := .native (.mint (v := x) .start rfl) rfl
  have first : Naming.ofTerm (.plain 0) limits (.string "T") (.native .I) none false .null
      ⟨2, 0, ∅⟩ = .ok ⟨info 0 "T", .native .I, none⟩ ⟨2, 1, ∅⟩ := rfl
  have named : Builds ⟨2, 1, ∅⟩ [inner, .native .I, .var x] :=
    .define free List.mem_cons_self first
  have second : Naming.ofTerm (.plain 0) limits (.string "U") inner none false .null
      ⟨2, 1, ∅⟩ = .ok ⟨info 1 "U", inner, none⟩ ⟨2, 2, ∅⟩ := rfl
  have again : Builds ⟨2, 2, ∅⟩ [outer, inner, .native .I, .var x] :=
    .define named List.mem_cons_self second
  have applied : Term.apply (.plain 0) (.var x) [outer] ⟨2, 2, ∅⟩ = .ok term store := rfl
  exact .apply again (by simp) (by simp) applied

end Nested

/-- The rounds that open one name and then the other come to an end, and so does a run with one more
argument. -/
theorem operations_end_nested :
    Builds Nested.store Nested.built ∧ Nested.term ∈ Nested.built ∧ Nested.limits.Numeric ∧
      (∃ N, ∀ l y, Trail (.plain 0) 5 ⟨Nested.term, 0, Nested.store⟩ l y → l.length ≤ N) ∧
      Ends (Nested.term.run (.plain 0) Nested.limits.steps [Nested.inner] true)
        (fun e => e = .numeralTooLong ∨ e = .runOutOfSteps Nested.term Nested.limits.steps)
        fun _ => True := by
  have mem : Nested.term ∈ Nested.built := List.mem_cons_self
  have numeric : Nested.limits.Numeric := ⟨⟨5, rfl⟩, ⟨2, rfl⟩⟩
  obtain ⟨rounds, runs, -⟩ := Nested.builds.operations_end mem (.plain 0) numeric
  have ends := runs [Nested.inner] true (by simp [Nested.built])
  exact ⟨Nested.builds, mem, numeric, rounds _ _,
    ends.mono (fun _ he => he.imp id And.right) fun _ _ => trivial⟩

end Combinatory
