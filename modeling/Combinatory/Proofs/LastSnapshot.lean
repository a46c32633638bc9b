import Combinatory.Proofs.Gradual
import Combinatory.Proofs.Making

/-!
# The last snapshot

A gradual compilation goes on until nothing is left to eliminate. Then basic combinators and
variables are all that its last snapshot shows, applied and named in any way
(`Term.madeWithin_basic`). Names are opened along with eliminations, at no cost; but the last
snapshot is taken before the last pass over the term, which eliminates nothing. So names may be left
that only this pass opens, if the eliminations come out even in chunks
(`Builds.exists_last_snapshot`).
-/

namespace Combinatory

/-- The basic combinators, under any names if there are names. -/
def Kinds.basic (named : Prop) : Kinds where
  native c := c.isBase = true
  name _ := named
  nested := False

namespace Term

variable {U : Prop} {s : Store} {e : Places}

mutual

/-- When nothing is left to eliminate from a regular term, it is made of basic combinators and has
no lambda, also where names stand for its parts. -/
theorem madeWithin_basic : ∀ {t : Term} {V : Set Variable}, t.Regular U V s →
    (t.core e).Uses (fun c => c.isPure = true) → (t.core e).next = none →
      t.MadeWithin (.basic U) 0
  | var _, _, _, _, _ => ⟨trivial, Nat.le_refl 0⟩
  | native c, _, _, hpure, hnext => by
    have base : c.isBase = true := by
      by_contra hbase
      obtain ⟨r, hr⟩ := Native.exists_template_of_isPure hpure
      rw [core_native, Core.next, if_neg hbase, Native.form?, hr] at hnext
      cases hnext
    exact ⟨base, Nat.le_refl 0⟩
  | foreign _, _, ht, _, _ => ht.elim
  | named _ d, _, ht, hpure, hnext =>
    have definition := madeWithin_basic (t := d) ht.2.2 hpure hnext
    ⟨⟨ht.1, definition.1⟩, definition.2⟩
  | lam _ b, _, _, _, hnext => by
    rw [core_lam, Core.next] at hnext
    split at hnext <;> cases hnext
  | app _ h as, _, ht, hpure, hnext => by
    rw [core, Core.uses_apps] at hpure
    rw [core, Core.next_apps_eq_none] at hnext
    have head := madeWithin_basic ht.2.1 hpure.1 hnext.1
    have args := madeAllWithin_basic ht.2.2 hpure.2 hnext.2
    refine ⟨⟨fun happ => ?_, head.1, args.1⟩, Nat.max_le.mpr ⟨head.2, args.2⟩⟩
    obtain ⟨n, g, bs, rfl⟩ := eq_app_of_isApp happ
    exact ht.1.flat n g bs rfl

theorem madeAllWithin_basic : ∀ {ts : List Term} {V : Set Variable}, RegularAll U V s ts →
    (∀ x ∈ cores e ts, x.Uses fun c => c.isPure = true) → (∀ x ∈ cores e ts, x.next = none) →
      MadeOfAll (.basic U) ts ∧ lambdaDepthOfAll ts ≤ 0
  | [], _, _, _, _ => ⟨trivial, Nat.le_refl 0⟩
  | _ :: _, _, hts, hpure, hnext => by
    rw [cores, List.forall_mem_cons] at hpure hnext
    have first := madeWithin_basic hts.1 hpure.1 hnext.1
    have rest := madeAllWithin_basic hts.2 hpure.2 hnext.2
    exact ⟨⟨first.1, rest.1⟩, Nat.max_le.mpr ⟨first.2, rest.2⟩⟩

end

end Term

/-! ### Where the snapshots end -/

variable {R : Rules} {limits : Budget} {s : Store} {ts : List Term} {t : Term} {k : Nat}

/-- A compiled term forms the combination that it has the core of. -/
theorem Term.IsCompiled.forms {u : Term} {c : Combination} (hu : u.IsCompiled)
    (h : u.core .free = c.core .free) : u.Forms c := by
  refine ⟨hu.1, Combination.core_free_injective ?_⟩
  rw [← hu.1.core_eq, h]

/-- What the last snapshot of a gradual compilation in chunks of `k` eliminations must show. -/
structure Term.IsLastSnapshot (R : Rules) (limits : Budget) (s : Store) (t : Term) (k : Nat)
    (r : Run) : Prop where
  final : r.final = true
  /-- All eliminations have been made. -/
  steps : r.steps = t.effort
  /-- There is no lambda, and no combinator but `S`, `K` and `I`, not even in a definition; and no
  name if there was none before. -/
  basic : r.term.MadeWithin (.basic (t.pending ≠ 0)) 0
  /-- But for names it is what the term is compiled to. -/
  core : r.term.core .free = t.ski.core .free
  /-- No name is left, unless the last chunk of eliminations was used up. -/
  unnamed : ¬ k ∣ t.effort → r.term.pending = 0
  /-- Where there is nothing to eliminate, the term is shown as it is. -/
  unchanged : t.effort = 0 → r.term = t
  /-- Another pass would open the names that are left, and eliminate nothing. -/
  opened : ∀ (maxSteps : Amount) (b : Nat), maxSteps.goal? = some (b : Int) → 1 ≤ b →
    ∃ u s', r.term.compileWithin R limits maxSteps s = .ok (u, 0) s' ∧ u.Forms t.ski

/-- A snapshot after all chunks of eliminations is the last one. -/
theorem Compilation.Shows.isLastSnapshot (hl : limits.Ample) (hsane : s.Sane) {r : Run} {i : Nat}
    (h : Shows (t.pending ≠ 0) t t.effort k i r s) (hpos : 0 < k) (hi : i = t.effort ⌈/⌉ k)
    (htotal : t.TakesInAll t.effort (t.ski.core .free)) : t.IsLastSnapshot R limits s k r := by
  have enough : t.effort ≤ i * k := by
    rw [hi, Nat.mul_comm]
    exact (ceilDiv_le_iff_le_mul hpos).mp le_rfl
  have steps : r.steps = t.effort := h.steps.trans (Nat.min_eq_right enough)
  have core : r.term.core .free = t.ski.core .free := by
    have takes := h.takes
    rw [steps] at takes
    exact takes.unique htotal.takes
  have spent : (r.term.core .free).next = none := by
    rw [core, htotal.next_eq_none]
  refine ⟨h.final.mpr hi.ge, steps,
    Term.madeWithin_basic h.compilable.regular h.compilable.pure spent, core, fun hk => ?_,
    fun hzero => h.start (by rw [hi, hzero, zero_ceilDiv]), fun maxSteps b hb hpositive => ?_⟩
  · have spare : r.steps < i * k := by
      refine Nat.lt_of_le_of_ne (steps ▸ enough) fun heq => hk ?_
      rw [← steps, heq]
      exact Nat.dvd_mul_left k i
    exact (h.compiled spare).1.pending_eq_zero
  · have nothing : r.term.TakesInAll 0 (r.term.core .free) := ⟨.refl _, spent⟩
    obtain ⟨⟨u, n⟩, s', hu, -, -, rfl, -, takes, done⟩ :=
      Term.yields_compileWithin_takes (R := R) hl h.compilable nothing hb hsane
    rw [Nat.min_zero] at hu takes done
    exact ⟨u, s', hu, (done hpositive).forms ((takes.unique (.refl _)).trans core)⟩

/-- The gradual compilation of a term that was built, in chunks of `k` eliminations, ends. One
snapshot alone is final, after as many others as there are chunks. -/
theorem Builds.exists_last_snapshot (h : Builds s ts) (ht : t ∈ ts) :
    ∀ s₁, s ≤ s₁ → s₁.Sane → ∀ (R : Rules) (limits : Budget), limits.Ample →
      ∀ (perStep : Amount) (k : Nat), perStep.goal? = some (k : Int) → 1 ≤ k →
        ∀ limit : Nat, t.effort ⌈/⌉ k < limit →
          ∃ l s₂ front r, t.bracketForms R limits perStep limit .ok s₁ = .ok l s₂ ∧
            l.failure = none ∧ l.items = front ++ [r] ∧ front.length = t.effort ⌈/⌉ k ∧
            (∀ r' ∈ front, r'.final = false) ∧ t.IsLastSnapshot R limits s₂ k r := by
  intro s₁ hs hsane R limits hl perStep k hk hpos limit hlimit
  have htotal := h.takesInAll ht hs hsane hl
  obtain ⟨l, s₂, hl', hsane₂, -, hfailure, hlen, hitems⟩ :=
    ((h.compilable ht id).later hs).yields_bracketForms (R := R) hl htotal hk hpos limit hsane
  have length : l.items.length = t.effort ⌈/⌉ k + 1 := by omega
  rcases l.items.eq_nil_or_concat' with hnil | ⟨front, r, hlast⟩
  · simp [hnil] at length
  rw [hlast] at length hitems
  have chunks : front.length = t.effort ⌈/⌉ k := by simpa using length
  refine ⟨l, s₂, front, r, hl', hfailure, hlast, chunks, fun r' hr' => ?_, ?_⟩
  · obtain ⟨i, hi, rfl⟩ := List.mem_iff_getElem.mp hr'
    have at_i : (front ++ [r])[i]? = some front[i] := by
      rw [List.getElem?_append_left hi, List.getElem?_eq_getElem hi]
    have shows := hitems i _ at_i
    rw [← Bool.not_eq_true, shows.final]
    omega
  · have shows := hitems front.length r (by simp)
    exact shows.isLastSnapshot hl hsane₂ hpos chunks htotal

/-! ### Names that are opened and names that are left -/

namespace Titled

/-- A variable that was asked for. -/
def x : Variable := ⟨"x", 1⟩

/-- What is known of a name that waits for no arguments. -/
def info (ident : Nat) (name : String) : NameInfo :=
  ⟨ident, name, .number 0, .bool false, .bool false, .null⟩

/-- A name for the variable. -/
def idle : Term := .named (info 0 "A") (.var x)

/-- A name for the duplicator. -/
def twice : Term := .named (info 1 "D") (.native .W)

/-- All terms at hand when both have been named. -/
def terms : List Term := [twice, .native .W, idle, .var x]

/-- The store at that time. -/
def store : Store := ⟨2, 2, ∅⟩

theorem sane : store.Sane := .of_settled_eq_empty rfl

/-- Both names are given without a search for a canonical form. -/
theorem builds : Builds store terms := by
  have first : Naming.ofTerm (.plain 0) ⟨.number 1, .number 4⟩ (.string "A") (.var x) none false
      .null ⟨2, 0, ∅⟩ = .ok ⟨info 0 "A", .var x, none⟩ ⟨2, 1, ∅⟩ := rfl
  have second : Naming.ofTerm (.plain 0) ⟨.number 1, .number 4⟩ (.string "D") (.native .W) none
      false .null ⟨2, 1, ∅⟩ = .ok ⟨info 1 "D", .native .W, none⟩ store := rfl
  have named : Builds ⟨2, 1, ∅⟩ [idle, .var x] :=
    .define (.mint (v := x) .start rfl) List.mem_cons_self first
  exact .define (.native named rfl) List.mem_cons_self second

end Titled

/-- The duplicator takes seven eliminations. As they are not used up in chunks of three, no name is
left in the last snapshot. -/
theorem exists_last_snapshot_twice :
    Builds Titled.store Titled.terms ∧ Titled.store.Sane ∧
      ∃ l s front r, Titled.twice.bracketForms (.plain 0) ⟨.number 1, .number 4⟩ (.number 3) 4 .ok
          Titled.store = .ok l s ∧ l.items = front ++ [r] ∧ front.length = 3 ∧
        r.steps = 7 ∧ r.term.MadeWithin (.basic True) 0 ∧ r.term.pending = 0 := by
  have effort : Titled.twice.effort = 7 := by decide
  have named : (Titled.twice.pending ≠ 0) = True := by simp [Titled.twice, Term.pending]
  obtain ⟨l, s, front, r, hl, -, hlast, hlen, -, last⟩ :=
    Titled.builds.exists_last_snapshot List.mem_cons_self _ (Store.le_refl _) Titled.sane (.plain 0)
      _ Passing.ample (.number 3) 3 rfl (by decide) 4 (by rw [effort]; decide)
  refine ⟨Titled.builds, Titled.sane, l, s, front, r, hl, hlast, ?_, ?_, ?_, ?_⟩
  · rw [hlen, effort]
    rfl
  · rw [last.steps, effort]
  · exact named ▸ last.basic
  · exact last.unnamed (by rw [effort]; decide)

/-- A name for a variable is the last snapshot, and the only one. -/
theorem last_snapshot_idle :
    Builds Titled.store Titled.terms ∧ Titled.idle ∈ Titled.terms ∧
      Titled.idle.bracketForms (.plain 0) ⟨.number 1, .number 4⟩ (.number 1) 2 .ok Titled.store =
        .ok ⟨[⟨Titled.idle, 0, true⟩], none⟩ Titled.store ∧ Titled.idle.pending = 1 := by
  have compiled : Titled.idle.compileWithin (.plain 0) ⟨.number 1, .number 4⟩ (.number 1) =
      pure (.var Titled.x, 0) := by
    simp [Titled.idle, Term.compileWithin, Term.isBudgeted, Term.compile, Compiled.free]
  refine ⟨Titled.builds, by simp [Titled.terms], ?_, rfl⟩
  simp only [Term.bracketForms, Listing.unfold, Compilation.next, compiled]
  rfl

end Combinatory
